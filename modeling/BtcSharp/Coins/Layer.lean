/-
# One cache layer as a write-back layer

The DIRTY and FRESH flags of an entry promise something about the map below. An
entry is legal over that map when the promises hold, and a cache is coherent when
all its entries are legal and the linked list holds exactly the flagged ones. Each
operation of a layer changes one cell, so each is specified by the cell it leaves,
and coherence follows cell by cell.
-/

import BtcSharp.Coins.View

namespace BtcSharp

open Function

/-- The promises an entry's flags make about the coin below it. -/
structure CCoinsCacheEntry.Legal (entry : CCoinsCacheEntry) (below : Option Coin) : Prop where
  clean : entry.dirty = false →
    entry.fresh = false ∧ entry.coin.isSpent = false ∧ below = some entry.coin
  fresh : entry.fresh = true → entry.coin.isSpent = false ∧ below = none
  spent : entry.coin.isSpent = true → entry.coin = Coin.empty

namespace CCoinsCacheEntry.Legal

variable {below : Option Coin}

/-- A flagged legal entry is DIRTY: FRESH alone does not occur. -/
theorem dirty_of_isFlagged {entry : CCoinsCacheEntry}
    (hlegal : entry.Legal below) (hflag : entry.isFlagged = true) : entry.dirty = true := by
  by_contra hdirty
  have hclean : entry.dirty = false := by simpa using hdirty
  simp [CCoinsCacheEntry.isFlagged, hclean, (hlegal.clean hclean).1] at hflag

end CCoinsCacheEntry.Legal

namespace CCoinsViewCache

/-- The map a cache stands for over a map below. -/
def onto (top : CCoinsViewCache) (below : UtxoMap) : UtxoMap := fun outpoint =>
  match top.cacheCoins outpoint with
  | some entry => entry.coin.unspent
  | none => below outpoint

/-- The linked list holds each flagged entry once and nothing else. -/
structure Linked (top : CCoinsViewCache) : Prop where
  nodup : top.flagged.Nodup
  mem_iff : ∀ outpoint, outpoint ∈ top.flagged ↔
    ∃ entry, top.cacheCoins outpoint = some entry ∧ entry.isFlagged = true

/-- Every entry is legal over the map below and the linked list is exact. -/
structure Coherent (top : CCoinsViewCache) (below : UtxoMap) : Prop where
  legal : ∀ outpoint entry, top.cacheCoins outpoint = some entry →
    entry.Legal (below outpoint)
  linked : top.Linked

/-! ## The primitive updates, cell by cell -/

section Primitives

variable (top : CCoinsViewCache) (outpoint : COutPoint)

theorem addFlags_cacheCoins (dirty fresh : Bool) : (top.addFlags outpoint dirty fresh).cacheCoins =
      update top.cacheCoins outpoint ((top.cacheCoins outpoint).map fun entry =>
        { entry with dirty := entry.dirty || dirty, fresh := entry.fresh || fresh }) := by
  unfold addFlags
  cases hentry : top.cacheCoins outpoint with
  | none => exact (update_eq_self_iff.mpr hentry.symm).symm
  | some entry => rfl

theorem setClean_cacheCoins : (top.setClean outpoint).cacheCoins =
      update top.cacheCoins outpoint ((top.cacheCoins outpoint).map fun entry =>
        { entry with dirty := false, fresh := false }) := by
  unfold setClean
  cases hentry : top.cacheCoins outpoint with
  | none => exact (update_eq_self_iff.mpr hentry.symm).symm
  | some entry => rfl

@[simp]
theorem erase_cacheCoins : (top.erase outpoint).cacheCoins = update top.cacheCoins outpoint none :=
    rfl

@[simp]
theorem setCoin_cacheCoins (coin : Coin) (allocated : Nat) :
    (top.setCoin outpoint coin allocated).cacheCoins = update top.cacheCoins outpoint
      (some { (top.cacheCoins outpoint).getD {} with coin := coin, allocated := allocated }) := rfl

variable (delta : UInt64)

@[simp]
theorem chargeUsage_cacheCoins :
    (top.chargeUsage delta).cacheCoins = top.cacheCoins := rfl

@[simp]
theorem refundUsage_cacheCoins :
    (top.refundUsage delta).cacheCoins = top.cacheCoins := rfl

@[simp]
theorem addFlags_hashBlock (dirty fresh : Bool) :
    (top.addFlags outpoint dirty fresh).hashBlock = top.hashBlock := by
  unfold addFlags
  split <;> rfl

@[simp]
theorem addFlags_cachedCoinsUsage (dirty fresh : Bool) :
    (top.addFlags outpoint dirty fresh).cachedCoinsUsage = top.cachedCoinsUsage := by
  unfold addFlags
  split <;> rfl

@[simp]
theorem setClean_hashBlock : (top.setClean outpoint).hashBlock = top.hashBlock := by
  unfold setClean
  split <;> rfl

@[simp]
theorem erase_hashBlock : (top.erase outpoint).hashBlock = top.hashBlock := rfl

@[simp]
theorem setCoin_hashBlock (coin : Coin) (allocated : Nat) :
    (top.setCoin outpoint coin allocated).hashBlock = top.hashBlock := rfl

@[simp]
theorem chargeUsage_hashBlock :
    (top.chargeUsage delta).hashBlock = top.hashBlock := rfl

@[simp]
theorem refundUsage_hashBlock :
    (top.refundUsage delta).hashBlock = top.hashBlock := rfl

end Primitives

/-! ## The primitive updates keep the linked list exact -/

namespace Linked

variable {top : CCoinsViewCache} {outpoint : COutPoint}

section

variable (h : top.Linked)

include h

/-- Rewriting one cell keeps the list exact when the list changes by at most that
outpoint and lists it exactly when the new cell is flagged. -/
theorem of_cell {top' : CCoinsViewCache} {cell : Option CCoinsCacheEntry}
    (hcells : top'.cacheCoins = update top.cacheCoins outpoint cell) (hnodup : top'.flagged.Nodup)
    (hothers : ∀ other, other ≠ outpoint → (other ∈ top'.flagged ↔ other ∈ top.flagged))
    (hhere : outpoint ∈ top'.flagged ↔ ∃ entry, cell = some entry ∧ entry.isFlagged = true) :
    top'.Linked := by
  refine ⟨hnodup, fun other => ?_⟩
  by_cases heq : other = outpoint
  · subst heq
    rw [hhere, hcells, update_self]
  · rw [hothers other heq, h.mem_iff, hcells, update_of_ne heq]

theorem chargeUsage (delta : UInt64) : (top.chargeUsage delta).Linked :=
  ⟨h.nodup, h.mem_iff⟩

theorem refundUsage (delta : UInt64) : (top.refundUsage delta).Linked :=
  ⟨h.nodup, h.mem_iff⟩

theorem setHashBlock (hash : Uint256) : ({ top with hashBlock := hash } : CCoinsViewCache).Linked :=
  ⟨h.nodup, h.mem_iff⟩

theorem erase : (top.erase outpoint).Linked := by
  refine h.of_cell rfl (h.nodup.erase _) (fun other hne => ?_) ?_
  · exact List.mem_erase_of_ne hne
  · simp [CCoinsViewCache.erase, h.nodup.not_mem_erase]

theorem setCoin (coin : Coin) (allocated : Nat) : (top.setCoin outpoint coin allocated).Linked := by
  refine h.of_cell rfl h.nodup (fun other _ => .rfl) ?_
  refine (h.mem_iff outpoint).trans ?_
  cases hentry : top.cacheCoins outpoint with
  | none | some entry => simp [CCoinsCacheEntry.isFlagged]

theorem addFlags {dirty fresh : Bool} (hsome : (dirty || fresh) = true) :
    (top.addFlags outpoint dirty fresh).Linked := by
  cases hentry : top.cacheCoins outpoint with
  | none => simpa [CCoinsViewCache.addFlags, hentry] using h
  | some entry =>
    have hmem : outpoint ∈ top.flagged ↔ entry.isFlagged = true := by
      simpa [hentry] using h.mem_iff outpoint
    have hflagged : (top.addFlags outpoint dirty fresh).flagged =
        if entry.isFlagged then top.flagged else top.flagged ++ [outpoint] := by
      simp [CCoinsViewCache.addFlags, hentry]
    have hnow : outpoint ∈ (top.addFlags outpoint dirty fresh).flagged := by
      rw [hflagged]
      split
      · next hflag => exact hmem.mpr hflag
      · simp
    refine h.of_cell (top.addFlags_cacheCoins outpoint dirty fresh) ?_ (fun other hne => ?_) ?_
    · rw [hflagged]
      split
      · exact h.nodup
      next hflag =>
      have hnot : outpoint ∉ top.flagged := fun hin => hflag (hmem.mp hin)
      simpa using h.nodup.concat hnot
    · rw [hflagged]
      split <;> simp [hne]
    · simp only [hnow, hentry, true_iff]
      refine ⟨_, rfl, ?_⟩
      revert hsome
      cases dirty <;> cases fresh <;> simp [CCoinsCacheEntry.isFlagged]

theorem setClean : (top.setClean outpoint).Linked := by
  cases hentry : top.cacheCoins outpoint with
  | none => simpa [CCoinsViewCache.setClean, hentry] using h
  | some entry =>
    have hflagged : (top.setClean outpoint).flagged = top.flagged.erase outpoint := by
      simp [CCoinsViewCache.setClean, hentry]
    refine h.of_cell (top.setClean_cacheCoins outpoint) ?_ (fun other hne => ?_) ?_
    · rw [hflagged]
      exact h.nodup.erase _
    · rw [hflagged]
      exact List.mem_erase_of_ne hne
    · rw [hflagged]
      simpa [CCoinsCacheEntry.isFlagged] using h.nodup.not_mem_erase

end

end Linked

/-! ## Operations that rewrite one cell -/

/-- `top'` is `top` with one cell rewritten. Memory usage is left open. -/
structure SetsCell (top : CCoinsViewCache) (outpoint : COutPoint)
    (cell : Option CCoinsCacheEntry) (top' : CCoinsViewCache) : Prop where
  cells : top'.cacheCoins = Function.update top.cacheCoins outpoint cell
  linked : top.Linked → top'.Linked
  hashBlock : top'.hashBlock = top.hashBlock

/-- The memory usage of a cell. -/
def usageOf (cell : Option CCoinsCacheEntry) : UInt64 :=
    (cell.map (·.dynamicMemoryUsage)).getD 0

/-- And the memory usage is that of the new cell instead of the old one. -/
structure Accounted (top : CCoinsViewCache) (outpoint : COutPoint)
    (cell : Option CCoinsCacheEntry) (top' : CCoinsViewCache) :
      Prop extends SetsCell top outpoint cell top' where
  usage : top'.cachedCoinsUsage = top.cachedCoinsUsage - usageOf
    (top.cacheCoins outpoint) + usageOf cell

/-- The coin a cell stands for over the coin below. -/
def cellCoin (below : Option Coin) : Option CCoinsCacheEntry → Option Coin
  | some entry => entry.coin.unspent
  | none => below

theorem onto_apply (top : CCoinsViewCache) (below : UtxoMap) (outpoint : COutPoint) :
    top.onto below outpoint = cellCoin (below outpoint) (top.cacheCoins outpoint) := by
  unfold onto cellCoin
  split <;> rfl

namespace SetsCell

variable {top top' : CCoinsViewCache} {outpoint : COutPoint}
  {cell : Option CCoinsCacheEntry} {below : UtxoMap}

section

variable (hset : SetsCell top outpoint cell top')

include hset

/-- What holds of every entry asks only about that cell after rewriting it. -/
theorem forall_entries {P : COutPoint → CCoinsCacheEntry → Prop}
    (h : ∀ other entry, top.cacheCoins other = some entry → P other entry)
    (hcell : ∀ entry, cell = some entry → P outpoint entry) (other : COutPoint)
      (entry : CCoinsCacheEntry)
    (hentry : top'.cacheCoins other = some entry) : P other entry := by
  rw [hset.cells] at hentry
  by_cases heq : other = outpoint
  · subst heq
    exact hcell entry (by simpa using hentry)
  · exact h other entry (by simpa [update_of_ne heq] using hentry)

theorem coherent (h : top.Coherent below) (hlegal : ∀ entry, cell = some entry →
    entry.Legal (below outpoint)) : top'.Coherent below :=
  ⟨hset.forall_entries h.legal hlegal, hset.linked h.linked⟩

/-- Rewriting a cell rebinds the map at that outpoint only. -/
theorem onto_eq : top'.onto below =
      update (top.onto below) outpoint (cellCoin (below outpoint) cell) := by
  funext other
  rw [onto_apply, hset.cells]
  by_cases heq : other = outpoint
  · subst heq
    simp
  · rw [update_of_ne heq, update_of_ne heq, onto_apply]

/-- Rewriting a cell to one that stands for the same coin changes no coin. -/
theorem onto_eq_self (hsame : cellCoin (below outpoint) cell = top.onto below outpoint) :
    top'.onto below = top.onto below := by
  rw [hset.onto_eq, hsame, update_eq_self]

end

end SetsCell

section Operations

attribute [local simp] setDirty setFresh addFlags_cacheCoins usageOf chargeUsage refundUsage setCoin
  CCoinsCacheEntry.dynamicMemoryUsage

variable {top : CCoinsViewCache} {outpoint : COutPoint} {coin : Coin} {entry : CCoinsCacheEntry}
  {allocated : Nat}

/-- Erasing an entry. -/
theorem erase_accounted (hentry : top.cacheCoins outpoint = some entry) :
    Accounted top outpoint none ((top.refundUsage entry.dynamicMemoryUsage).erase outpoint) :=
  ⟨⟨by simp, fun h => (h.refundUsage _).erase, by simp⟩, by simp [hentry, erase]⟩

/-- Fetching a coin leaves a clean entry, or a FRESH one for a spent coin. -/
theorem insertFetched_accounted (hnone : top.cacheCoins outpoint = none) (coin : Coin) :
    Accounted top outpoint (some ⟨coin, false, coin.isSpent, coin.allocation⟩)
      (top.insertFetched outpoint coin) := by
  unfold insertFetched
  cases coin.isSpent with
  | false =>
    exact ⟨⟨by simp [hnone], fun h => (h.setCoin coin _).chargeUsage _, rfl⟩, by simp [hnone]⟩
  | true =>
    refine ⟨⟨?_, fun h => ((h.setCoin coin _).chargeUsage _).addFlags rfl, ?_⟩, ?_⟩
    all_goals simp [hnone]

/-- `AddCoin` of a spendable coin refunds the old coin, whether or not it then throws. -/
theorem addCoin_refunds : (if (top.cacheCoins outpoint).isSome
      then top.refundUsage ((top.cacheCoins outpoint).getD {}).dynamicMemoryUsage else top) =
    top.refundUsage (usageOf (top.cacheCoins outpoint)) := by
  cases top.cacheCoins outpoint with
  | none => simp
  | some entry => rfl

/-- `AddCoin` of a spendable coin leaves a DIRTY entry, which is FRESH when it was
or when the entry owed nothing to the layer below. -/
theorem addCoin_accounted {possible_overwrite : Bool} (hcoin : coin.isSpent = false)
    (hspendable : coin.out.scriptPubKey.isUnspendable = false)
    (hfree : possible_overwrite = false → ((top.cacheCoins outpoint).getD {}).coin.isSpent = true) :
    (top.addCoin outpoint coin possible_overwrite allocated).1 = .ok () ∧ Accounted top outpoint
        (some ⟨coin, true, ((top.cacheCoins outpoint).getD {}).fresh ||
          (!possible_overwrite && !((top.cacheCoins outpoint).getD {}).dirty), allocated⟩)
        (top.addCoin outpoint coin possible_overwrite allocated).2 := by
  obtain ⟨entry, hentry⟩ : ∃ entry, entry = (top.cacheCoins outpoint).getD {} := ⟨_, rfl⟩
  obtain ⟨refunded, hrefunded⟩ : ∃ refunded, refunded =
      top.refundUsage (usageOf (top.cacheCoins outpoint)) := ⟨_, rfl⟩
  have hrefund := @addCoin_refunds top outpoint
  rw [← hentry, ← hrefunded] at hrefund
  have hguard : (!possible_overwrite && !entry.coin.isSpent) = false := by
    cases possible_overwrite with
    | true => rfl
    | false => simp [hentry, hfree rfl]
  have hadd :
        top.addCoin outpoint coin possible_overwrite allocated =
        (.ok (), (if !possible_overwrite && !entry.dirty
        then ((refunded.setCoin outpoint coin allocated).setDirty outpoint).setFresh outpoint
        else (refunded.setCoin outpoint coin allocated).setDirty outpoint).chargeUsage
          (mallocUsage allocated)) := by
    simp only [addCoin, hcoin, hspendable, Bool.false_eq_true, if_false, ← hentry, hrefund, hguard]
  have hlinked (h : top.Linked) :
      ((refunded.setCoin outpoint coin allocated).setDirty outpoint).Linked := by
    rw [hrefunded]
    exact ((h.refundUsage _).setCoin coin _).addFlags rfl
  rw [hadd, ← hentry]
  refine ⟨rfl, ?_⟩
  cases hfresh : !possible_overwrite && !entry.dirty with
  | false =>
    refine ⟨⟨?_, fun h => (hlinked h).chargeUsage _, ?_⟩, ?_⟩
    all_goals simp [hrefunded, ← hentry]
  | true =>
    refine ⟨⟨?_, fun h => ((hlinked h).addFlags rfl).chargeUsage _, ?_⟩, ?_⟩
    all_goals simp [hrefunded, ← hentry]

/-- Spending an entry drops it when FRESH and leaves a DIRTY spent one otherwise. -/
theorem spendEntry_accounted (hentry : top.cacheCoins outpoint = some entry) :
      Accounted top outpoint (if entry.fresh then none else some { coin := .empty, dirty := true })
      (top.spendEntry outpoint entry) := by
  unfold spendEntry
  split
  · exact erase_accounted hentry
  next hfresh =>
  refine ⟨⟨?_, fun h => ((h.refundUsage _).addFlags rfl).setCoin _ _, by simp⟩, ?_⟩
  · have hfresh' : entry.fresh = false := by simpa using hfresh
    simp [hentry, hfresh']
    rfl
  · simp [hentry]
    rfl

/-- The cursor of a syncing child erases spent entries and cleans the others. -/
theorem nextAndMaybeErase_accounted (hentry : top.cacheCoins outpoint = some entry) :
    Accounted top outpoint
      (if entry.coin.isSpent then none else some { entry with dirty := false, fresh := false })
      (top.nextAndMaybeErase false outpoint) := by
  simp only [nextAndMaybeErase, hentry]
  split
  · exact erase_accounted hentry
  · exact ⟨⟨by simp [setClean_cacheCoins, hentry],
      fun h => h.setClean, by simp⟩, by simp [setClean, hentry]⟩

/-- `BatchWrite` creates an entry, FRESH like that of the child. -/
theorem create_accounted (hnone : top.cacheCoins outpoint = none) (coin : Coin) (fresh : Bool)
    (allocated : Nat) :
    let created :=
      ((top.setCoin outpoint coin allocated).chargeUsage (mallocUsage allocated)).setDirty outpoint
    Accounted top outpoint (some ⟨coin, true, fresh, allocated⟩)
      (if fresh then created.setFresh outpoint else created) := by
  cases fresh with
  | false =>
    refine ⟨⟨?_, fun h => ((h.setCoin _ _).chargeUsage _).addFlags rfl, ?_⟩, ?_⟩
    all_goals simp [hnone]
  | true =>
    refine ⟨⟨?_, fun h => (((h.setCoin _ _).chargeUsage _).addFlags rfl).addFlags rfl, ?_⟩, ?_⟩
    all_goals simp [hnone]

/-- Or it overwrites the coin of an entry, which stays FRESH. -/
theorem overwrite_accounted (hentry : top.cacheCoins outpoint = some entry) (coin : Coin)
    (allocated : Nat) :
    Accounted top outpoint (some ⟨coin, true, entry.fresh, allocated⟩)
      ((((top.refundUsage entry.dynamicMemoryUsage).setCoin outpoint coin allocated).chargeUsage
        (mallocUsage allocated)).setDirty outpoint) := by
  refine ⟨⟨?_, fun h => (((h.refundUsage _).setCoin _ _).chargeUsage _).addFlags rfl, ?_⟩, ?_⟩
  all_goals simp [hentry]

end Operations

/-! ## Operations on a coherent layer -/

namespace Coherent

variable {top : CCoinsViewCache} {below : UtxoMap} {outpoint : COutPoint} {entry : CCoinsCacheEntry}
  {coin : Coin} {possible_overwrite : Bool}

theorem onto_of_some (hentry : top.cacheCoins outpoint = some entry) :
    top.onto below outpoint = entry.coin.unspent := by
  rw [onto_apply, hentry]
  rfl

theorem onto_of_none (hnone : top.cacheCoins outpoint = none) :
    top.onto below outpoint = below outpoint := by
  rw [onto_apply, hnone]
  rfl

/-- Off the linked list the layer shows what is below it. -/
theorem onto_of_notMem_flagged (h : top.Coherent below) (hnot : outpoint ∉ top.flagged) :
    top.onto below outpoint = below outpoint := by
  cases hentry : top.cacheCoins outpoint with
  | none => exact onto_of_none hentry
  | some entry =>
    have hclean : entry.dirty = false := by
      by_contra hdirty
      have hflag : entry.isFlagged = true := by
        simp [CCoinsCacheEntry.isFlagged, Bool.eq_true_of_not_eq_false hdirty]
      exact hnot ((h.linked.mem_iff outpoint).mpr ⟨entry, hentry, hflag⟩)
    obtain ⟨-, hspent, hbelow⟩ := (h.legal outpoint entry hentry).clean hclean
    rw [onto_of_some hentry, Coin.unspent_of_not_isSpent hspent, hbelow]

/-- A listed entry exists, is DIRTY and is legal. -/
theorem entry_of_mem_flagged (h : top.Coherent below) (hmem : outpoint ∈ top.flagged) :
    ∃ entry, top.cacheCoins outpoint = some entry ∧ entry.dirty = true ∧
    entry.Legal (below outpoint) := by
  obtain ⟨entry, hentry, hflag⟩ := (h.linked.mem_iff outpoint).mp hmem
  have hlegal := h.legal outpoint entry hentry
  exact ⟨entry, hentry, hlegal.dirty_of_isFlagged hflag, hlegal⟩

theorem insertFetched (h : top.Coherent below)
    (hnone : top.cacheCoins outpoint = none) (hbelow : below outpoint = some coin)
    (hcoin : coin.isSpent = false) :
    (top.insertFetched outpoint coin).Coherent below ∧
      (top.insertFetched outpoint coin).onto below = top.onto below := by
  have hset := insertFetched_accounted hnone coin
  rw [hcoin] at hset
  refine ⟨hset.coherent h ?_, hset.onto_eq_self ?_⟩
  · rintro _ ⟨rfl⟩
    exact ⟨fun _ => ⟨rfl, hcoin, hbelow⟩, by simp, by simp [hcoin]⟩
  · rw [onto_of_none hnone, hbelow]
    exact Coin.unspent_of_not_isSpent hcoin

/-- Where the layer shows no coin, its entry if any is spent. -/
theorem getD_isSpent (hfree : possible_overwrite = false → top.onto below outpoint = none)
    (hover : possible_overwrite = false) :
    ((top.cacheCoins outpoint).getD {}).coin.isSpent = true := by
  cases hentry : top.cacheCoins outpoint with
  | none => rfl
  | some entry =>
    have hnone := (onto_of_some hentry).symm.trans (hfree hover)
    by_contra hunspent
    rw [Coin.unspent_of_not_isSpent (by simpa using hunspent)] at hnone
    cases hnone

section

variable (h : top.Coherent below)

include h

/-- `AddCoin` binds the coin unless its script can never be spent. FRESH was there before or is set
because nothing is owed below. -/
theorem addCoin (hcoin : coin.isSpent = false)
    (hfree : possible_overwrite = false → top.onto below outpoint = none) :
    (top.addCoin outpoint coin possible_overwrite).1 = .ok () ∧
      (top.addCoin outpoint coin possible_overwrite).2.Coherent below ∧
      (top.addCoin outpoint coin possible_overwrite).2.onto below =
        (if coin.out.scriptPubKey.isUnspendable then top.onto below
          else update (top.onto below) outpoint (some coin)) ∧
      (top.addCoin outpoint coin possible_overwrite).2.hashBlock = top.hashBlock := by
  cases hscript : coin.out.scriptPubKey.isUnspendable with
  | true => simp [CCoinsViewCache.addCoin, hcoin, hscript, h]
  | false =>
    have hspent := getD_isSpent hfree
    obtain ⟨hok, hset⟩ := addCoin_accounted hcoin hscript hspent
    refine ⟨hok, hset.coherent h ?_, ?_, hset.hashBlock⟩
    · rintro _ ⟨rfl⟩
      refine ⟨by simp, fun hfresh => ⟨hcoin, ?_⟩, by simp [hcoin]⟩
      cases hentry : top.cacheCoins outpoint with
      | none =>
        have hover : possible_overwrite = false := by simpa [hentry] using hfresh
        exact (onto_of_none hentry).symm.trans (hfree hover)
      | some old =>
        have hlegal := h.legal outpoint old hentry
        cases hold : old.fresh with
        | true => exact (hlegal.fresh hold).2
        | false =>
          have hflags : possible_overwrite = false ∧ old.dirty = false := by
            simpa [hentry, hold] using hfresh
          have hwas := hspent hflags.1
          rw [hentry, Option.getD_some, (hlegal.clean hflags.2).2.1] at hwas
          cases hwas
    · rw [hset.onto_eq]
      simp [cellCoin, Coin.unspent_of_not_isSpent hcoin]

/-- Spending an entry unbinds the outpoint. -/
theorem spendEntry (hentry : top.cacheCoins outpoint = some entry) :
    (top.spendEntry outpoint entry).Coherent below ∧ (top.spendEntry outpoint entry).onto below =
        update (top.onto below) outpoint none := by
  have hset := spendEntry_accounted hentry
  refine ⟨hset.coherent h ?_, hset.onto_eq.trans ?_⟩
  · intro new hnew
    split at hnew
    · cases hnew
    · cases hnew
      exact ⟨by simp, by simp, fun _ => rfl⟩
  cases hfresh : entry.fresh with
  | true => simp [cellCoin, ((h.legal outpoint entry hentry).fresh hfresh).2]
  | false => simp [cellCoin]

/-- `Uncache` drops only what the layer below shows as well. -/
theorem uncache (outpoint : COutPoint) :
    (top.uncache outpoint).Coherent below ∧ (top.uncache outpoint).onto below = top.onto below ∧
      (top.uncache outpoint).hashBlock = top.hashBlock := by
  cases hentry : top.cacheCoins outpoint with
  | none => simp [CCoinsViewCache.uncache, hentry, h]
  | some entry =>
    cases hflag : entry.isFlagged with
    | true => simp [CCoinsViewCache.uncache, hentry, hflag, h]
    | false =>
      have hset : SetsCell top outpoint none (top.uncache outpoint) := by
        simp only [CCoinsViewCache.uncache, hentry, hflag]
        exact (erase_accounted hentry).toSetsCell
      have hnot : outpoint ∉ top.flagged := by
        rw [h.linked.mem_iff, hentry]
        simp [hflag]
      exact ⟨hset.coherent h (by simp), hset.onto_eq_self (h.onto_of_notMem_flagged hnot).symm,
        hset.hashBlock⟩

/-- A coherent parent receives a DIRTY entry that is legal over it: no exception,
and the parent now shows the child's coin. -/
theorem receiveEntry (will_erase : Bool) (hdirty : entry.dirty = true)
    (hlegal : entry.Legal (top.onto below outpoint)) :
    ∃ top', top.receiveEntry will_erase outpoint entry = .ok top' ∧ top'.Coherent below ∧
      top'.onto below = update (top.onto below) outpoint entry.coin.unspent := by
  suffices hcell : ∃ top' cell, top.receiveEntry will_erase outpoint entry = .ok top' ∧
      SetsCell top outpoint cell top' ∧ (∀ new, cell = some new → new.Legal (below outpoint)) ∧
      cellCoin (below outpoint) cell = entry.coin.unspent by
    obtain ⟨top', cell, hok, hset, hnew, hcoin⟩ := hcell
    exact ⟨top', hok, hset.coherent h hnew, by rw [hset.onto_eq, hcoin]⟩
  cases hus : top.cacheCoins outpoint with
  | none =>
    rw [onto_of_none hus] at hlegal
    have hkeep : (entry.fresh && entry.coin.isSpent) = false := by
      cases hfresh : entry.fresh with
      | false => rfl
      | true => simp [(hlegal.fresh hfresh).1]
    refine ⟨_, some ⟨entry.coin, true, entry.fresh, _⟩,
      by simp only [CCoinsViewCache.receiveEntry, hdirty, hus, hkeep]; rfl,
      (create_accounted hus entry.coin entry.fresh _).toSetsCell, ?_, rfl⟩
    rintro new ⟨rfl⟩
    exact ⟨by simp, hlegal.fresh, hlegal.spent⟩
  | some itUs =>
    have hus' := h.legal outpoint itUs hus
    rw [onto_of_some hus] at hlegal
    have happlied : (entry.fresh && !itUs.coin.isSpent) = false := by
      cases hfresh : entry.fresh with
      | false => rfl
      | true =>
        have hnone := (hlegal.fresh hfresh).2
        by_contra hcontra
        rw [Coin.unspent_of_not_isSpent (by simpa using hcontra)] at hnone
        cases hnone
    cases hdrop : itUs.fresh && entry.coin.isSpent with
    | true =>
      obtain ⟨hfresh, hspent⟩ : itUs.fresh = true ∧ entry.coin.isSpent = true := by
        simpa using hdrop
      refine ⟨(top.refundUsage itUs.dynamicMemoryUsage).erase outpoint, none,
        by simp [CCoinsViewCache.receiveEntry, hdirty, hus, happlied, hdrop],
        (erase_accounted hus).toSetsCell, by simp, ?_⟩
      rw [Coin.unspent_of_isSpent hspent]
      exact (hus'.fresh hfresh).2
    | false =>
      refine ⟨_, some ⟨entry.coin, true, itUs.fresh, _⟩,
        by simp only [CCoinsViewCache.receiveEntry, hdirty, hus, happlied, hdrop]; rfl,
        (overwrite_accounted hus entry.coin _).toSetsCell, ?_, rfl⟩
      rintro new ⟨rfl⟩
      refine ⟨by simp, fun hfresh => ⟨?_, (hus'.fresh hfresh).2⟩, hlegal.spent⟩
      simp only at hfresh
      simpa [hfresh] using hdrop

end

end Coherent

end CCoinsViewCache

end BtcSharp
