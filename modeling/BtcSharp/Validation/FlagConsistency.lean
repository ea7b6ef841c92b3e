/-
# When the failure flags stay consistent

The flags are consistent at every point of a run of safe calls, and from there a call
keeps them consistent exactly if it is safe. Two calls need not be: resetting a block
also clears its ancestors and may leave a flag on a block beside it that owed it to one
of them, and an `InvalidateBlock` that stops halfway does not flag what was built on the
blocks it has disconnected.
-/

import BtcSharp.Validation.FailureFlags

namespace BtcSharp

open BlockStatus Function List

namespace BlockTree

/-! ## Ancestors as suffixes -/

variable {block pindex : CBlockIndex} {hashGenesisBlock hash : Uint256} {tree tree' : BlockTree}

theorem descends_iff (hne : pindex ≠ []) : block.descends pindex = true ↔ pindex <:+ block := by
  rw [CBlockIndex.descends, beq_iff_eq, CBlockIndex.getAncestor_eq_iff hne]

theorem not_cons_suffix (hash : Uint256) (pprev : CBlockIndex) : ¬ hash :: pprev <:+ pprev := by
  intro h
  have hlength := h.length_le
  rw [length_cons] at hlength
  omega

/-! ## Status bits -/

@[simp]
theorem failed_setFailedValid (status : BlockStatus) : status.setFailedValid.failed = true := rfl

@[simp]
theorem failed_setFailedChild (status : BlockStatus) : status.setFailedChild.failed = true := by
  simp [failed, setFailedChild]

@[simp]
theorem failed_clearFailed (status : BlockStatus) : status.clearFailed.failed = false := rfl

theorem failed_of_failedValid {status : BlockStatus} (h : status.failedValid = true) :
    status.failed = true := by
  simp [failed, h]

@[simp]
theorem raiseValidity_flags (status : BlockStatus) (nUpTo : Nat) :
    (status.raiseValidity nUpTo).failedValid = status.failedValid ∧
      (status.raiseValidity nUpTo).failed = status.failed := by
  unfold raiseValidity
  split
  · exact ⟨rfl, rfl⟩
  · split <;> exact ⟨rfl, rfl⟩

theorem Shape.chain_mem (h : tree.Shape hashGenesisBlock) (hsuffix : block <:+ tree.tip)
    (hne : block ≠ []) : block ∈ tree.index :=
  (h.closed tree.tip h.tip_mem).2 block hsuffix hne

/-! ## Setting flags -/

/-- Some blocks get flags, and the valid ones for themselves. -/
structure Flags (valid failed : CBlockIndex → Prop) (tree tree' : BlockTree) : Prop where
  index : tree'.index = tree.index
  failedValid : ∀ block, (tree'.status block).failedValid = true ↔
    valid block ∨ (tree.status block).failedValid = true
  failed : ∀ block ∈ tree.index, (tree'.status block).failed = true ↔
    failed block ∨ (tree.status block).failed = true

/-- Only the new flags can be inconsistent. -/
theorem Flags.consistent_iff {valid failed : CBlockIndex → Prop} (h : Flags valid failed tree tree')
    (hconsistent : tree.Consistent) : tree'.Consistent ↔
    (∀ block ∈ tree.index, failed block → ∃ ancestor ∈ tree.index, ancestor <:+ block ∧
      (valid ancestor ∨ (tree.status ancestor).failedValid = true)) ∧
    ∀ ancestor ∈ tree.index, valid ancestor → ∀ block ∈ tree.index, ancestor <:+ block →
      failed block ∨ (tree.status block).failed = true := by
  unfold Consistent
  simp only [h.index, h.failedValid]
  constructor
  · rintro ⟨hfailed, hvalid⟩
    refine ⟨fun block hblock hnew => ?_, fun ancestor hancestor hnew block hblock hsuffix => ?_⟩
    · exact hfailed block hblock ((h.failed block hblock).mpr (.inl hnew))
    · exact (h.failed block hblock).mp (hvalid ancestor hancestor (.inl hnew) block hblock hsuffix)
  rintro ⟨hfailed, hvalid⟩
  refine ⟨fun block hblock hbit => ?_, fun ancestor hancestor hbit block hblock hsuffix => ?_⟩
  · rcases (h.failed block hblock).mp hbit with hnew | hold
    · exact hfailed block hblock hnew
    · obtain ⟨ancestor, hancestor, hsuffix, hbit⟩ := hconsistent.1 block hblock hold
      exact ⟨ancestor, hancestor, hsuffix, .inr hbit⟩
  · apply (h.failed block hblock).mpr
    rcases hbit with hnew | hold
    · exact hvalid ancestor hancestor hnew block hblock hsuffix
    · exact .inr (hconsistent.2 ancestor hancestor hold block hblock hsuffix)

/-! ## Marking a block -/

theorem markFailed_status (tree : BlockTree) (pindex block : CBlockIndex) :
    (tree.markFailed pindex).status block =
      if block = pindex then (tree.status pindex).setFailedValid
      else if block ∈ tree.index ∧ block.descends pindex ∧ !(tree.status block).failed then
        (tree.status block).setFailedChild
      else tree.status block := by
  by_cases heq : block = pindex
  · subst heq
    simp [markFailed, invalidChainFound, setBlockFailureFlags, modify]
  · simp [markFailed, invalidChainFound, setBlockFailureFlags, modify, heq]

theorem markFailed_failedValid (tree : BlockTree) (pindex block : CBlockIndex) :
    ((tree.markFailed pindex).status block).failedValid = true ↔
      block = pindex ∨ (tree.status block).failedValid = true := by
  rw [markFailed_status]
  split
  · next heq => simp [heq, setFailedValid]
  next hne =>
  split
  · simp [hne, setFailedChild]
  · simp [hne]

theorem markFailed_failed (hne : pindex ≠ []) (hblock : block ∈ tree.index) :
    ((tree.markFailed pindex).status block).failed = true ↔
      pindex <:+ block ∨ (tree.status block).failed = true := by
  rw [markFailed_status]
  split
  · next heq => simp [heq]
  split
  · next hmarks => simp [(descends_iff hne).mp hmarks.2.1]
  next hmarks =>
  constructor
  · exact .inr
  rintro (hsuffix | hfailed)
  · by_contra hnot
    exact hmarks ⟨hblock, (descends_iff hne).mpr hsuffix, by simpa using hnot⟩
  · exact hfailed

theorem markFailed_flags (hne : pindex ≠ []) :
    Flags (· = pindex) (pindex <:+ ·) tree (tree.markFailed pindex) :=
  ⟨rfl, markFailed_failedValid tree pindex, fun _ => markFailed_failed hne⟩

theorem Shape.markFailed (h : tree.Shape hashGenesisBlock)
    (hpindex : pindex ∈ tree.index) (hchain : ¬ pindex <:+ tree.tip) :
    (tree.markFailed pindex).Shape hashGenesisBlock := by
  refine ⟨h.genesis, h.closed, h.tip_mem, ?_, h.recorded.1.insert, ?_⟩
  · intro block hsuffix hblock
    rw [Bool.eq_false_iff, ne_eq, markFailed_failed (h.closed pindex hpindex).1
      (h.chain_mem hsuffix hblock), h.chain block hsuffix hblock]
    rintro (hdescends | hold)
    · exact hchain (hdescends.trans hsuffix)
    · cases hold
  · intro block hblock
    rw [markFailed_failedValid]
    rcases mem_insert_iff.mp hblock with rfl | hold
    · exact ⟨hpindex, .inl rfl⟩
    · exact (h.recorded.2 block hold).imp_right .inr

/-- Marking a block that is not on the active chain keeps the invariant. -/
theorem Inv.markFailed (h : tree.Inv hashGenesisBlock)
    (hpindex : pindex ∈ tree.index) (hchain : ¬ pindex <:+ tree.tip) :
    (tree.markFailed pindex).Inv hashGenesisBlock := by
  have hflags := @markFailed_flags pindex tree (h.closed pindex hpindex).1
  refine ⟨h.toShape.markFailed hpindex hchain, (hflags.consistent_iff h.consistent).mpr ⟨?_, ?_⟩⟩
  · exact fun block _ hsuffix => ⟨pindex, hpindex, hsuffix, .inl rfl⟩
  · rintro ancestor _ rfl block _ hsuffix
    exact .inl hsuffix

/-! ## `InvalidateBlock` -/

/-- The tree after the active chain was cut back to a new tip, with the blocks above it
marked. -/
def cutBack (tree : BlockTree) (tip : CBlockIndex) : BlockTree :=
  { tree with
    tip := tip
    status := fun block => if block <:+ tree.tip ∧ ¬ block <:+ tip then
        (tree.status block).setFailedValid
      else tree.status block }

theorem cutBack_self (tree : BlockTree) : tree.cutBack tree.tip = tree := by
  unfold cutBack
  simp

/-- The tip is disconnected and marked. -/
def markTip (tree : BlockTree) (hash : Uint256) (pprev : CBlockIndex) : BlockTree :=
  ({ tree with tip := pprev } : BlockTree).modify (hash :: pprev) .setFailedValid

/-- Cutting back by one block and then further. -/
theorem cutBack_markTip {pprev tip : CBlockIndex} (htip : tree.tip = hash :: pprev)
    (hsuffix : tip <:+ pprev) : (tree.markTip hash pprev).cutBack tip = tree.cutBack tip := by
  unfold cutBack markTip modify
  simp only [htip, mk.injEq, true_and, and_true]
  funext block
  by_cases heq : block = hash :: pprev
  · subst heq
    have hnot : ¬ hash :: pprev <:+ tip := fun h => not_cons_suffix hash pprev (h.trans hsuffix)
    simp [hnot, not_cons_suffix hash pprev]
  have hiff : block <:+ hash :: pprev ↔ block <:+ pprev := by
    rw [suffix_cons_iff]
    exact ⟨fun h => h.resolve_left heq, .inr⟩
  simp [heq, hiff]

/-- The loop has cut the active chain back from a tip, and `to_mark_failed` is the last block that
it disconnected, if any. -/
def LoopCuts (tree : BlockTree) (to_mark_failed tip : CBlockIndex)
    (result : Bool × BlockTree × CBlockIndex) : Prop :=
  ∃ tip' : CBlockIndex, tip' <:+ tip ∧ (tip ≠ [] → tip' ≠ []) ∧ result.2.1 = tree.cutBack tip' ∧
    (tip' = tip ∧ result.2.2 = to_mark_failed ∨ ∃ hash, hash :: tip' <:+ tip ∧
    result.2.2 = hash :: tip')

theorem loopCuts_self {tip to_mark_failed : CBlockIndex} (htip : tree.tip = tip) (ok : Bool) :
    LoopCuts tree to_mark_failed tip (ok, tree, to_mark_failed) := by
  refine ⟨tip, suffix_rfl, id, ?_, .inl ⟨rfl, rfl⟩⟩
  rw [← htip, cutBack_self]

/-- The correction of an earlier mark never happens in the loop. -/
theorem invalidateLoop_spec {events : Nat → LoopEvent} {pindex : CBlockIndex}
    (hpindex : 2 ≤ pindex.length) {tip : CBlockIndex} :
    ∀ {n : Nat} {tree : BlockTree} {to_mark_failed : CBlockIndex}, tree.tip = tip →
      (to_mark_failed <:+ tip → (tree.status to_mark_failed).failedValid = false) →
      LoopCuts tree to_mark_failed tip
        (invalidateLoop events pindex tip n tree to_mark_failed) := by
  induction tip with
  | nil => exact fun htip _ => loopCuts_self htip true
  | cons hash pprev ih =>
    intro n tree to_mark_failed htip hmark
    rw [invalidateLoop]
    split
    · exact loopCuts_self htip true
    by_cases hcontains : tree.chainContains pindex = true
    · cases hevent : (events n).disconnected with
      | false =>
        simp only [hcontains]
        exact loopCuts_self htip false
      | true =>
        have hcorrect : ¬ (pprev = to_mark_failed ∧
            ((tree.markTip hash pprev).status to_mark_failed).failedValid = true) := by
          rintro ⟨rfl, hbit⟩
          have hsame : (tree.markTip hash pprev).status pprev = tree.status pprev :=
            update_of_ne (cons_ne_self hash pprev).symm _ _
          rw [hsame, hmark (suffix_cons hash pprev)] at hbit
          cases hbit
        have hpprev : pprev ≠ [] := by
          rintro rfl
          have hlength := ((descends_iff (length_pos_iff.mp (by omega))).mp hcontains).length_le
          rw [htip, length_singleton] at hlength
          omega
        obtain ⟨tip', hsuffix, hne, hcut, hlast⟩ :=
          @ih (n + 1) (tree.markTip hash pprev) (hash :: pprev) rfl
          (fun h => absurd h (not_cons_suffix hash pprev))
        rw [cutBack_markTip htip hsuffix] at hcut
        unfold markTip at *
        simp only [hcontains, Bool.not_true, Bool.false_eq_true, if_false]
        rw [if_neg hcorrect]
        refine ⟨tip', hsuffix.trans (suffix_cons hash pprev), fun _ => hne hpprev, hcut, ?_⟩
        rcases hlast with ⟨rfl, hlast⟩ | ⟨hash', hsuffix', hlast⟩
        · exact .inr ⟨hash, suffix_rfl, hlast⟩
        · exact .inr ⟨hash', hsuffix'.trans (suffix_cons hash pprev), hlast⟩
    · simp only [hcontains]
      exact loopCuts_self htip true

section CutBack

variable {tip : CBlockIndex}

/-- A bit that `BLOCK_FAILED_VALID` sets. -/
theorem cutBack_bit {bit : BlockStatus →
    Bool} (hbit : ∀ status, bit (.setFailedValid status) = true)
    (tree : BlockTree) (tip block : CBlockIndex) : bit ((tree.cutBack tip).status block) = true ↔
      (block <:+ tree.tip ∧ ¬ block <:+ tip) ∨ bit (tree.status block) = true := by
  unfold cutBack
  dsimp only
  split
  · next hcut => exact iff_of_true (hbit _) (.inl hcut)
  · next hcut => exact (or_iff_right hcut).symm

theorem cutBack_flags : Flags (fun block => block <:+ tree.tip ∧ ¬ block <:+ tip)
    (fun block => block <:+ tree.tip ∧ ¬ block <:+ tip) tree (tree.cutBack tip) :=
  ⟨rfl, cutBack_bit (fun _ => rfl) tree tip, fun block _ => cutBack_bit failed_setFailedValid
    tree tip block⟩

theorem Shape.cutBack (h : tree.Shape hashGenesisBlock) (hsuffix : tip <:+ tree.tip)
    (hne : tip ≠ []) : (tree.cutBack tip).Shape hashGenesisBlock := by
  refine ⟨h.genesis, h.closed, h.chain_mem hsuffix hne, ?_, h.recorded.1, ?_⟩
  · intro block hblock hblockNe
    rw [Bool.eq_false_iff, ne_eq, cutBack_bit failed_setFailedValid,
      h.chain block (hblock.trans hsuffix) hblockNe]
    rintro (hcut | hold)
    · exact hcut.2 hblock
    · cases hold
  · intro block hblock
    exact (h.recorded.2 block hblock).imp_right fun hbit => (cutBack_flags.failedValid block).mpr
      (.inr hbit)

/-- A cut back chain is consistent exactly if nothing but failed blocks was built on the
blocks that were cut off. -/
theorem Inv.cutBack_consistent_iff (h : tree.Inv hashGenesisBlock) :
    (tree.cutBack tip).Consistent ↔ ∀ removed, removed <:+ tree.tip → ¬ removed <:+ tip →
      ∀ block ∈ tree.index, removed <:+ block → block <:+ tree.tip ∨
      (tree.status block).failed = true := by
  rw [cutBack_flags.consistent_iff h.consistent]
  constructor
  · rintro ⟨-, hvalid⟩ removed hremoved hcut block hblock hsuffix
    have hne : removed ≠ [] := by
      rintro rfl
      exact hcut nil_suffix
    exact (hvalid removed (h.chain_mem hremoved hne) ⟨hremoved, hcut⟩ block hblock hsuffix).imp_left
      And.left
  · refine fun hsafe => ⟨fun block hblock hcut => ⟨block, hblock, suffix_rfl, .inl hcut⟩, ?_⟩
    intro ancestor _ hcut block hblock hsuffix
    refine (hsafe ancestor hcut.1 hcut.2 block hblock hsuffix).imp_left fun hchain => ⟨hchain, ?_⟩
    exact fun htip => hcut.2 (hsuffix.trans htip)

/-- Cutting the chain back and marking the last block cut off, which flags everything
that was built on the blocks cut off. -/
theorem Inv.cutBack_markFailed (h : tree.Inv hashGenesisBlock)
    (hsuffix : hash :: tip <:+ tree.tip) (hne : tip ≠ []) :
    ((tree.cutBack tip).markFailed (hash :: tip)).Inv hashGenesisBlock := by
  have hcons := cons_ne_nil hash tip
  have htip : tip <:+ tree.tip := (suffix_cons hash tip).trans hsuffix
  have hmem : hash :: tip ∈ tree.index := h.chain_mem hsuffix hcons
  have hlast : ∀ block, block <:+ tree.tip → ¬ block <:+ tip → hash :: tip <:+ block := by
    intro block hblock hcut
    rcases suffix_or_suffix_of_suffix hsuffix hblock with hdescends | hdescends
    · exact hdescends
    rcases suffix_cons_iff.mp hdescends with heq | hbelow
    · exact heq ▸ suffix_rfl
    · exact absurd hbelow hcut
  have hflags : Flags (fun block => block = hash :: tip ∨ block <:+ tree.tip ∧ ¬ block <:+ tip)
      (fun block => hash :: tip <:+ block ∨ block <:+ tree.tip ∧ ¬ block <:+ tip) tree
      ((tree.cutBack tip).markFailed (hash :: tip)) := by
    refine ⟨rfl, fun block => ?_, fun block hblock => ?_⟩
    · rw [markFailed_failedValid, cutBack_flags.failedValid, or_assoc]
    · rw [@markFailed_failed block _ (tree.cutBack tip) hcons hblock,
        cutBack_flags.failed block hblock, or_assoc]
  refine ⟨(h.toShape.cutBack htip hne).markFailed hmem (not_cons_suffix hash tip),
    (hflags.consistent_iff h.consistent).mpr ⟨?_, ?_⟩⟩
  · rintro block hblock (hbelow | hcut)
    · exact ⟨hash :: tip, hmem, hbelow, .inl (.inl rfl)⟩
    · exact ⟨block, hblock, suffix_rfl, .inl (.inr hcut)⟩
  · rintro ancestor _ (rfl | hcut) block _ hbelow
    · exact .inl (.inl hbelow)
    · exact .inl (.inl ((hlast ancestor hcut.1 hcut.2).trans hbelow))

end CutBack

/-- The flags are consistent exactly if a call was safe, and then the invariant holds. -/
def Judged (hashGenesisBlock : Uint256) (safe : Prop) (tree : BlockTree) : Prop :=
  (tree.Consistent ↔ safe) ∧ (tree.Consistent → tree.Inv hashGenesisBlock)

theorem Inv.judged {safe : Prop} (h : tree.Inv hashGenesisBlock) (hsafe : safe) :
    Judged hashGenesisBlock safe tree :=
  ⟨⟨fun _ => hsafe, fun _ => h.consistent⟩, fun _ => h⟩

theorem Inv.invalidateBlock (h : tree.Inv hashGenesisBlock) (hpindex : pindex ∈ tree.index)
    (events : Nat → LoopEvent) :
      Judged hashGenesisBlock ((Op.invalidateBlock pindex events).Safe tree)
      (tree.invalidateBlock pindex events).2 := by
  by_cases hheight : pindex.nHeight = 0
  · rw [BlockTree.invalidateBlock, if_pos hheight]
    exact h.judged fun hne => absurd hheight hne
  have hlength : 2 ≤ pindex.length := by
    unfold CBlockIndex.nHeight at hheight
    omega
  have htipNe := (h.closed tree.tip h.tip_mem).1
  have hpindexNe := (h.closed pindex hpindex).1
  obtain ⟨tip, hsuffix, hne, hcut, hlast⟩ := @invalidateLoop_spec events pindex hlength tree.tip 0
    tree pindex rfl (fun hchain => by
      have hnot := h.chain pindex hchain hpindexNe
      simp only [failed, Bool.or_eq_false_iff] at hnot
      exact hnot.1)
  have hshape := h.toShape.cutBack hsuffix (hne htipNe)
  rcases hloop : invalidateLoop events pindex tree.tip 0 tree pindex with
    ⟨ok, after, to_mark_failed⟩
  rw [hloop] at hcut hlast
  subst hcut
  cases ok with
  | false =>
    have hresult : tree.invalidateBlock pindex events = (false, tree.cutBack tip) := by
      simp [BlockTree.invalidateBlock, if_neg hheight, hloop]
    rw [hresult]
    refine ⟨?_, fun hconsistent => ⟨hshape, hconsistent⟩⟩
    rw [h.cutBack_consistent_iff]
    unfold Op.Safe
    simp only [hloop, hheight, ne_eq, not_false_eq_true, forall_const]
    exact .rfl
  | true =>
    have hsafe : (Op.invalidateBlock pindex events).Safe tree := by
      intro _ hfalse
      rw [hloop] at hfalse
      cases hfalse
    have hinv : (tree.invalidateBlock pindex events).2.Inv hashGenesisBlock := by
      rcases hlast with ⟨rfl, rfl⟩ | ⟨hash, hdescends, rfl⟩
      · rw [cutBack_self] at hloop
        simp only [BlockTree.invalidateBlock, if_neg hheight, hloop]
        split
        · exact h
        · next hnot =>
          exact h.markFailed hpindex fun hchain => hnot ((descends_iff hpindexNe).mpr hchain)
      · have hnot : ¬ (tree.cutBack tip).chainContains (hash :: tip) = true := fun hcontains =>
          not_cons_suffix hash tip ((descends_iff (cons_ne_nil hash tip)).mp hcontains)
        simp only [BlockTree.invalidateBlock, if_neg hheight, hloop, if_neg hnot]
        exact h.cutBack_markFailed hdescends (hne htipNe)
    exact hinv.judged hsafe

/-! ## `ResetBlockFailureFlags` -/

/-- The bits of `tree'` are those of `tree` on the blocks that are kept, and no others. -/
structure Clears (kept : CBlockIndex → Prop) (tree tree' : BlockTree) : Prop where
  index : tree'.index = tree.index
  tip : tree'.tip = tree.tip
  failed : ∀ block ∈ tree.index, (tree'.status block).failed = true ↔
    (tree.status block).failed = true ∧ kept block
  failedValid : ∀ block ∈ tree.index, (tree'.status block).failedValid = true ↔
    (tree.status block).failedValid = true ∧ kept block
  recorded : tree.Recorded → tree'.Recorded

theorem Clears.trans {kept kept' : CBlockIndex → Prop} {tree'' : BlockTree}
    (h : Clears kept tree tree') (h' : Clears kept' tree' tree'') :
    Clears (fun block => kept block ∧ kept' block) tree tree'' := by
  refine ⟨h'.index.trans h.index, h'.tip.trans h.tip, ?_, ?_, fun hr => h'.recorded (h.recorded hr)⟩
  · intro block hblock
    rw [h'.failed block (h.index ▸ hblock), h.failed block hblock, and_assoc]
  · intro block hblock
    rw [h'.failedValid block (h.index ▸ hblock), h.failedValid block hblock, and_assoc]

theorem Clears.congr {kept kept' : CBlockIndex → Prop}
    (h : Clears kept tree tree') (hiff : ∀ block ∈ tree.index, kept block ↔ kept' block) :
    Clears kept' tree tree' := by
  refine ⟨h.index, h.tip, ?_, ?_, h.recorded⟩
  · exact fun block hblock => (h.failed block hblock).trans (and_congr_right' (hiff block hblock))
  · exact fun block hblock =>
      (h.failedValid block hblock).trans (and_congr_right' (hiff block hblock))

/-- One step of the walk over the ancestors clears the block it is at. -/
theorem clears_modify : Clears (· ≠ pindex) tree
      { tree.modify pindex .clearFailed with failedBlocks := tree.failedBlocks.erase pindex } := by
  refine ⟨rfl, rfl, ?_, ?_, ?_⟩
  · intro block _
    by_cases heq : block = pindex <;> simp [modify, heq]
  · intro block _
    by_cases heq : block = pindex
    · simp [modify, heq, clearFailed]
    · simp [modify, heq]
  · rintro ⟨hnodup, hbits⟩
    refine ⟨hnodup.erase pindex, ?_⟩
    intro block hblock
    obtain ⟨hne, hmem⟩ := hnodup.mem_erase_iff.mp hblock
    obtain ⟨hindex, hbit⟩ := hbits block hmem
    refine ⟨hindex, ?_⟩
    simpa [modify, hne] using hbit

/-- A block without a flag need not be cleared. -/
theorem clears_of_not_failed (h : (tree.status pindex).failed = false) :
    Clears (· ≠ pindex) tree tree := by
  have hkept : ∀ block, (tree.status block).failed = true → block ≠ pindex := by
    rintro block hfailed rfl
    rw [h] at hfailed
    cases hfailed
  refine ⟨rfl, rfl, ?_, ?_, id⟩
  · exact fun block _ => (and_iff_left_of_imp (hkept block)).symm
  · exact fun block _ =>
      (and_iff_left_of_imp fun hbit => hkept block (failed_of_failedValid hbit)).symm

/-- The walk clears the block it starts from and its ancestors. -/
theorem resetAncestors_clears (pindex : CBlockIndex) : ∀ tree :
      BlockTree, (∀ block ∈ tree.index, block ≠ []) →
      Clears (fun block => ¬ block <:+ pindex) tree (resetAncestors pindex tree) := by
  induction pindex with
  | nil =>
    intro tree hne
    have hkept : ∀ block ∈ tree.index, ¬ block <:+ [] := fun block hblock hsuffix =>
      hne block hblock (suffix_nil.mp hsuffix)
    refine ⟨rfl, rfl, ?_, ?_, id⟩
    · exact fun block hblock => (and_iff_left (hkept block hblock)).symm
    · exact fun block hblock => (and_iff_left (hkept block hblock)).symm
  | cons hash pprev ih =>
    intro tree hne
    have hiff : ∀ block ∈ tree.index, (block ≠ hash :: pprev ∧ ¬ block <:+ pprev) ↔
        ¬ block <:+ hash :: pprev := by
      intro block _
      rw [suffix_cons_iff, not_or]
    rw [resetAncestors]
    split
    · exact (clears_modify.trans (ih _ hne)).congr hiff
    · next hfailed =>
      exact ((clears_of_not_failed (Bool.eq_false_iff.mpr hfailed)).trans (ih _ hne)).congr hiff

/-- The pass over the index clears the block and its descendants. -/
theorem clears_descendants {resets : CBlockIndex → Bool}
    (hresets : ∀ block, resets block = true ↔ block ∈ tree.index ∧
      (tree.status block).isValid BLOCK_VALID_TRANSACTIONS = false ∧ pindex <:+ block) :
    Clears (fun block => ¬ pindex <:+ block) tree { tree with
        status := fun block =>
          if resets block then (tree.status block).clearFailed else tree.status block
        failedBlocks := tree.failedBlocks.filter fun block => !resets block } := by
  have hflagged : ∀ block ∈ tree.index, resets block = false →
      (tree.status block).failed = true → ¬ pindex <:+ block := by
    intro block hblock hnot hfailed hsuffix
    have hreset := (hresets block).mpr ⟨hblock, by simp [isValid, hfailed], hsuffix⟩
    rw [hreset] at hnot
    cases hnot
  refine ⟨rfl, rfl, ?_, ?_, ?_⟩
  · intro block hblock
    cases hreset : resets block with
    | true => simp [hreset, ((hresets block).mp hreset).2.2]
    | false =>
      simp only [hreset, Bool.false_eq_true, if_false]
      exact (and_iff_left_of_imp (hflagged block hblock hreset)).symm
  · intro block hblock
    cases hreset : resets block with
    | true => simp [hreset, ((hresets block).mp hreset).2.2, clearFailed]
    | false =>
      simp only [hreset, Bool.false_eq_true, if_false]
      exact (and_iff_left_of_imp fun hbit =>
        hflagged block hblock hreset (failed_of_failedValid hbit)).symm
  · rintro ⟨hnodup, hbits⟩
    refine ⟨hnodup.filter _, ?_⟩
    intro block hblock
    obtain ⟨hmem, hnot⟩ := mem_filter.mp hblock
    rw [Bool.not_eq_true'] at hnot
    simpa [hnot] using hbits block hmem

/-- The reset clears the block, its ancestors and its descendants. -/
theorem resetBlockFailureFlags_clears {tree : BlockTree} {pindex : CBlockIndex}
    (hne : ∀ block ∈ tree.index, block ≠ []) (hpindex : pindex ≠ []) :
    Clears (fun block => ¬ pindex <:+ block ∧ ¬ block <:+ pindex) tree
      (tree.resetBlockFailureFlags pindex) := by
  apply Clears.trans (clears_descendants ?_) (resetAncestors_clears pindex _ hne)
  intro block
  rw [Bool.and_eq_true, Bool.and_eq_true, decide_eq_true_eq, Bool.not_eq_true',
    descends_iff hpindex, and_assoc]

theorem Inv.resetBlockFailureFlags (h : tree.Inv hashGenesisBlock) (hpindex : pindex ∈ tree.index) :
    Judged hashGenesisBlock ((Op.resetBlockFailureFlags pindex).Safe tree)
      (tree.resetBlockFailureFlags pindex) := by
  have hclears := @resetBlockFailureFlags_clears tree pindex
    (fun block hblock => (h.closed block hblock).1) (h.closed pindex hpindex).1
  refine ⟨⟨?_, ?_⟩, ?_⟩
  · rintro ⟨hfailed, -⟩ block hblock hbit hbelow habove
    rw [hclears.index] at hfailed
    obtain ⟨ancestor, hancestor, hsuffix, hvalid⟩ := hfailed block hblock
      ((hclears.failed block hblock).mpr ⟨hbit, hbelow, habove⟩)
    have hkept := (hclears.failedValid ancestor hancestor).mp hvalid
    exact ⟨ancestor, hancestor, hsuffix, hkept.1, hkept.2.2⟩
  · intro hsafe
    unfold Consistent
    rw [hclears.index]
    refine ⟨?_, ?_⟩
    · intro block hblock hfailed
      obtain ⟨hbit, hbelow, habove⟩ := (hclears.failed block hblock).mp hfailed
      obtain ⟨ancestor, hancestor, hsuffix, hvalid, hbeside⟩ :=
        hsafe block hblock hbit hbelow habove
      exact ⟨ancestor, hancestor, hsuffix, (hclears.failedValid ancestor hancestor).mpr
        ⟨hvalid, fun hdescends => hbelow (hdescends.trans hsuffix), hbeside⟩⟩
    intro ancestor hancestor hvalid block hblock hsuffix
    obtain ⟨hbit, hbelow, habove⟩ := (hclears.failedValid ancestor hancestor).mp hvalid
    refine (hclears.failed block hblock).mpr
      ⟨h.consistent.2 ancestor hancestor hbit block hblock hsuffix, ?_, ?_⟩
    · intro hdescends
      exact (suffix_or_suffix_of_suffix hdescends hsuffix).elim hbelow habove
    · exact fun hdescends => habove (hsuffix.trans hdescends)
  · intro hconsistent
    refine ⟨⟨?_, ?_, ?_, ?_, hclears.recorded h.recorded⟩, hconsistent⟩
    · rw [hclears.index]
      exact h.genesis
    · rw [hclears.index]
      exact h.closed
    · rw [hclears.index, hclears.tip]
      exact h.tip_mem
    · intro block hsuffix hne
      rw [hclears.tip] at hsuffix
      rw [Bool.eq_false_iff, ne_eq, hclears.failed block (h.chain_mem hsuffix hne),
        h.chain block hsuffix hne]
      simp

/-! ## `AcceptBlockHeader` and `ActivateBestChain` -/

theorem find_none (h : tree.find hash = none) :
    ∀ block ∈ tree.index, block.getBlockHash ≠ hash := by
  intro block hblock
  simpa using find?_eq_none.mp h block hblock

section

variable (h : tree.Inv hashGenesisBlock)

include h

/-- A new entry on a block that is not failed. -/
theorem Inv.addToBlockIndex {hashPrevBlock : Uint256} {pindexPrev : CBlockIndex}
    (hnew : tree.find hash = none) (hprev : tree.find hashPrevBlock = some pindexPrev)
    (hnot : (tree.status pindexPrev).failed = false) :
    (tree.addToBlockIndex hash hashPrevBlock).Inv hashGenesisBlock := by
  have hprevMem := mem_of_find?_eq_some hprev
  have hfresh : ∀ block ∈ tree.index, block ≠ hash :: pindexPrev := by
    rintro block hblock rfl
    exact find_none hnew _ hblock rfl
  have hadd : tree.addToBlockIndex hash hashPrevBlock = { tree with
      index := (hash :: pindexPrev) :: tree.index
      status := update tree.status (hash :: pindexPrev)
        (.raiseValidity {} BLOCK_VALID_TREE) } := by
    simp [BlockTree.addToBlockIndex, hnew, hprev]
  have hself : (raiseValidity {} BLOCK_VALID_TREE).failed = false := (raiseValidity_flags _ _).2
  generalize raiseValidity {} BLOCK_VALID_TREE = new at hadd hself
  have hold : ∀ block ∈ tree.index, update tree.status (hash :: pindexPrev) new block =
    tree.status block :=
    fun block hblock => update_of_ne (hfresh block hblock) _ _
  rw [hadd]
  refine ⟨⟨?_, ?_, mem_cons_of_mem _ h.tip_mem, ?_, h.recorded.1, ?_⟩, ?_, ?_⟩
  · obtain ⟨block, hblock, hgenesis⟩ := h.genesis
    exact ⟨block, mem_cons_of_mem _ hblock, hgenesis⟩
  · intro block hblock
    rcases mem_cons.mp hblock with rfl | hblock
    · refine ⟨cons_ne_nil _ _, ?_⟩
      intro ancestor hsuffix hne
      rcases suffix_cons_iff.mp hsuffix with rfl | hsuffix
      · exact mem_cons_self
      · exact mem_cons_of_mem _ ((h.closed pindexPrev hprevMem).2 ancestor hsuffix hne)
    refine ⟨(h.closed block hblock).1, ?_⟩
    exact fun ancestor hsuffix hne =>
      mem_cons_of_mem _ ((h.closed block hblock).2 ancestor hsuffix hne)
  · intro block hsuffix hne
    exact (congrArg _ (hold block (h.chain_mem hsuffix hne))).trans (h.chain block hsuffix hne)
  · intro block hblock
    obtain ⟨hmem, hbit⟩ := h.recorded.2 block hblock
    exact ⟨mem_cons_of_mem _ hmem, (congrArg _ (hold block hmem)).trans hbit⟩
  · intro block hblock hfailed
    dsimp only at hfailed ⊢
    rcases mem_cons.mp hblock with rfl | hblock
    · rw [update_self, hself] at hfailed
      cases hfailed
    rw [hold block hblock] at hfailed
    obtain ⟨ancestor, hancestor, hsuffix, hbit⟩ := h.consistent.1 block hblock hfailed
    exact ⟨ancestor, mem_cons_of_mem _ hancestor, hsuffix, by rwa [hold ancestor hancestor]⟩
  · intro ancestor hancestor hbit block hblock hsuffix
    dsimp only at hbit ⊢
    rcases mem_cons.mp hancestor with rfl | hancestor
    · rw [update_self] at hbit
      rw [failed_of_failedValid hbit] at hself
      cases hself
    rw [hold ancestor hancestor] at hbit
    rcases mem_cons.mp hblock with rfl | hblock
    · rcases suffix_cons_iff.mp hsuffix with heq | hsuffix
      · exact absurd heq (hfresh ancestor hancestor)
      · rw [h.consistent.2 ancestor hancestor hbit pindexPrev hprevMem hsuffix] at hnot
        cases hnot
    · rw [hold block hblock]
      exact h.consistent.2 ancestor hancestor hbit block hblock hsuffix

/-- `AcceptBlockHeader` keeps the invariant. Its assertion holds, and the walk that flags
the path down to a recorded block is never taken. -/
theorem Inv.acceptBlockHeader (header : HeaderInput) :
    ∃ ok tree', tree.acceptBlockHeader hashGenesisBlock header = some (ok, tree') ∧
      tree'.Inv hashGenesisBlock := by
  unfold BlockTree.acceptBlockHeader
  split
  · next hgenesis =>
    refine ⟨(tree.finishHeader header).1, (tree.finishHeader header).2, rfl, ?_⟩
    unfold finishHeader
    split
    · exact h
    · obtain ⟨block, hblock, hhash⟩ := h.genesis
      cases hfind : tree.find header.hash with
      | none => exact absurd (hhash.trans hgenesis.symm) (find_none hfind block hblock)
      | some pindex =>
        simp only [BlockTree.addToBlockIndex, hfind]
        exact h
  cases hfind : tree.find header.hash with
  | some pindex => exact ⟨_, _, rfl, h⟩
  | none =>
    by_cases hcheck : header.checkBlockHeader = true
    · cases hprev : tree.find header.hashPrevBlock with
      | none => exact ⟨false, tree, by simp [hcheck], h⟩
      | some pindexPrev =>
        by_cases hfailed : (tree.status pindexPrev).failed = true
        · exact ⟨false, tree, by simp [hcheck, hfailed], h⟩
        have hnot := Bool.eq_false_iff.mpr hfailed
        have hnone : (tree.failedBlocks.find? pindexPrev.descends) =
            none := by
          apply find?_eq_none.mpr
          intro failedit hmem hdescends
          obtain ⟨hindex, hbit⟩ := h.recorded.2 failedit hmem
          exact hfailed (h.consistent.2 failedit hindex hbit pindexPrev (mem_of_find?_eq_some hprev)
            ((descends_iff (h.closed failedit hindex).1).mp hdescends))
        have hfinish : (tree.finishHeader header).2.Inv hashGenesisBlock := by
          unfold finishHeader
          split
          · exact h
          · exact h.addToBlockIndex hfind hprev hnot
        by_cases hcontext : header.contextualCheckBlockHeader = true
        · refine ⟨(tree.finishHeader header).1, (tree.finishHeader header).2, ?_, hfinish⟩
          simp [hcheck, hnot, hcontext, hnone]
        · exact ⟨false, tree, by simp [hcheck, hnot, hcontext], h⟩
    · exact ⟨false, tree, by simp [hcheck], h⟩

/-- Moving the active chain raises validity levels only. -/
theorem Inv.activate {tip : CBlockIndex} (hlegal : (Op.activate tip).Legal tree)
    (happly : (Op.activate tip).apply hashGenesisBlock tree = some tree') :
    tree'.Inv hashGenesisBlock := by
  obtain ⟨hmem, hchain⟩ := hlegal
  rw [Op.apply, Option.some_inj] at happly
  subst happly
  have hbits : ∀ block, let status := if tip.descends block then
        (tree.status block).raiseValidity BLOCK_VALID_SCRIPTS else tree.status block
      status.failed = (tree.status block).failed ∧
        status.failedValid = (tree.status block).failedValid := by
    intro block
    dsimp only
    split <;> simp
  refine ⟨⟨h.genesis, h.closed, hmem, ?_, h.recorded.1, ?_⟩, ?_⟩
  · exact fun block hsuffix hne => (hbits block).1.trans (hchain block hsuffix hne)
  · simpa [hbits] using h.recorded.2
  · simpa [Consistent, hbits] using h.consistent

/-! ## Runs -/

/-- A call keeps the flags consistent exactly if it is safe, and then keeps the
invariant. -/
theorem Inv.apply {op : Op} (hlegal : op.Legal tree) :
    ∃ tree', op.apply hashGenesisBlock tree = some tree' ∧
    Judged hashGenesisBlock (op.Safe tree) tree' := by
  cases op with
  | acceptBlockHeader header =>
    obtain ⟨_, tree', haccept, hinv⟩ := h.acceptBlockHeader header
    exact ⟨tree', by simp [Op.apply, haccept], hinv.judged trivial⟩
  | invalidBlockFound pindex mutated =>
    refine ⟨_, rfl, Inv.judged ?_ trivial⟩
    unfold invalidBlockFound
    split
    · exact h
    · exact h.markFailed hlegal.1 hlegal.2
  | invalidateBlock pindex events => exact ⟨_, rfl, h.invalidateBlock hlegal events⟩
  | resetBlockFailureFlags pindex => exact ⟨_, rfl, h.resetBlockFailureFlags hlegal⟩
  | activate tip => exact ⟨_, rfl, (h.activate hlegal rfl).judged trivial⟩

end

theorem Reaches.inv {start : BlockTree}
    (hstart : start.Inv hashGenesisBlock) (h : Reaches hashGenesisBlock start tree) :
    tree.Inv hashGenesisBlock := by
  induction h with
  | refl => exact hstart
  | step before hlegal hsafe happly ih =>
    obtain ⟨_, happly', hiff, hinv⟩ := ih.apply hlegal
    rw [happly, Option.some_inj] at happly'
    subst happly'
    exact hinv (hiff.mpr hsafe)

/-- After every run of safe calls the failure flags are consistent, and the next call
returns and keeps them so exactly if it is safe. -/
theorem failureFlags_consistent_iff {hashGenesisBlock : Uint256} {start tree : BlockTree}
    (hstart : start.Inv hashGenesisBlock) (hrun : Reaches hashGenesisBlock start tree) :
    tree.Consistent ∧ ∀ op : Op, op.Legal tree →
        ∃ tree', op.apply hashGenesisBlock tree = some tree' ∧
        (tree'.Consistent ↔ op.Safe tree) := by
  have hinv := hrun.inv hstart
  refine ⟨hinv.consistent, ?_⟩
  intro op hlegal
  obtain ⟨tree', happly, hiff, -⟩ := hinv.apply hlegal
  exact ⟨tree', happly, hiff⟩

instance (tree : BlockTree) : Decidable tree.Consistent :=
  inferInstanceAs (Decidable (_ ∧ _))

/-- Two blocks on top of a block that is not on the active chain. -/
def sampleFork : BlockTree :=
  { index := [[1], [2, 1], [3, 2, 1], [4, 2, 1]], status := fun _ => {},
    failedBlocks := [], tip := [1] }

/-- An active chain of three blocks with a header on top. -/
def sampleChain : BlockTree :=
  { index := [[1], [2, 1], [3, 2, 1], [4, 3, 2, 1]], status := fun _ => {}, failedBlocks := [],
    tip := [3, 2, 1] }

/-- The tip can be disconnected, the blocks below it cannot. -/
def sampleStop (n : Nat) : LoopEvent := { interrupt := false, disconnected := n == 0 }

theorem sampleFork_inv : sampleFork.Inv 1 :=
  ⟨⟨by decide, by simp +contextual [sampleFork, suffix_cons_iff], by decide, fun _ _ _ => rfl,
    nodup_nil, nofun⟩, nofun, nofun⟩

theorem sampleChain_inv : sampleChain.Inv 1 :=
  ⟨⟨by decide, by simp +contextual [sampleChain, suffix_cons_iff], by decide, fun _ _ _ => rfl,
    nodup_nil, nofun⟩, nofun, nofun⟩

theorem failureFlags_consistent_iff_sampleFork :
    sampleFork.Inv 1 ∧ Reaches 1 sampleFork (sampleFork.invalidateBlock [2, 1] sampleStop).2 ∧
      (sampleFork.invalidateBlock [2, 1] sampleStop).2.Consistent := by
  have hrun : Reaches 1 sampleFork (sampleFork.invalidateBlock [2, 1] sampleStop).2 := by
    apply @Reaches.step 1 sampleFork sampleFork _ (.invalidateBlock [2, 1] sampleStop) .refl
    · show ([2, 1] : CBlockIndex) ∈ sampleFork.index
      decide
    · intro _ hstopped
      exact absurd hstopped (by decide)
    · rfl
  exact ⟨sampleFork_inv, hrun, (failureFlags_consistent_iff sampleFork_inv hrun).1⟩

/-- Resetting `[3, 2, 1]` also clears `[2, 1]`, to which `[4, 2, 1]` owes its flag. And when
the second block from the tip cannot be disconnected, the header on the old tip keeps no
flag. -/
theorem failureFlags_leftBehind : (sampleFork.Inv 1 ∧ ∃ tree tree',
      (Op.invalidateBlock [2, 1] sampleStop).Legal sampleFork ∧
      (Op.invalidateBlock [2, 1] sampleStop).apply 1 sampleFork = some tree ∧
      (Op.resetBlockFailureFlags [3, 2, 1]).Legal tree ∧
      (Op.resetBlockFailureFlags [3, 2, 1]).apply 1 tree = some tree' ∧
      (tree'.status [4, 2, 1]).failedChild = true ∧
      (∀ block ∈ tree'.index, (tree'.status block).failedValid = false) ∧ ¬ tree'.Consistent) ∧
    (sampleChain.Inv 1 ∧ ∃ tree', (Op.invalidateBlock [2, 1] sampleStop).Legal sampleChain ∧
      (Op.invalidateBlock [2, 1] sampleStop).apply 1 sampleChain = some tree' ∧
      (tree'.status [3, 2, 1]).failedValid = true ∧
      (tree'.status [4, 3, 2, 1]).failed = false ∧ ¬ tree'.Consistent) := by
  refine ⟨⟨sampleFork_inv, _, _, ?_, rfl, ?_, rfl, ?_, ?_, ?_⟩,
    ⟨sampleChain_inv, _, ?_, rfl, ?_, ?_, ?_⟩⟩
  · show ([2, 1] : CBlockIndex) ∈ sampleFork.index
    decide
  · show ([3, 2, 1] : CBlockIndex) ∈ (sampleFork.invalidateBlock [2, 1] sampleStop).2.index
    decide
  · decide
  · decide
  · decide
  · show ([2, 1] : CBlockIndex) ∈ sampleChain.index
    decide
  · decide
  · decide
  · decide

end BlockTree

end BtcSharp
