/-
# The coin statistics index equals a full scan

Appending and rewinding keep the running totals at the sum over the current chain, modulo `2 ^ 64`,
and a record of every block that was ever appended where `LookUpOne` finds it. So no call fails and
every assertion of `ReverseBlock` holds.

The totals of spent and of created outputs grow with every payment and are kept in signed numbers of
64 bits. The statistics are those of the chain as long as its totals fit.
-/

import BtcSharp.Index.CoinStatsChain

namespace BtcSharp

open Math CBlockIndex Function List RunningStats

def makeBlockInfo (store : BlockStore) (pindex : CBlockIndex) : BlockInfo where
  hash := pindex.getBlockHash
  prev_hash := if pindex.pprev.isEmpty then none else some pindex.pprev.getBlockHash
  height := pindex.nHeight
  data := store.readBlock pindex

/-- The reference to a block. -/
def CBlockIndex.ref (pindex : CBlockIndex) : BlockRef := ⟨pindex.getBlockHash, pindex.nHeight⟩

namespace CoinStatsIndex

variable {G : Type} [CommGroup G]

/-- The index before any block. -/
def start : CoinStatsIndex G where
  running := ⟨.empty, fun _ => 0⟩
  heightIndex := fun _ => none
  hashIndex := fun _ => none

section

variable (menv : MuHashEnv G) (env : ChainEnv) (store : BlockStore)

/-- The record of a block. -/
def recordOf (pindex : CBlockIndex) : DBVal where
  muhash := menv.digest (chainStat menv env store pindex).2.toMul
  totals := (wrap (chainStat menv env store pindex)).1

end

variable {menv : MuHashEnv G} {env : ChainEnv} {store : BlockStore} {index : CoinStatsIndex G}
  {hash : Uint256} {pindex : CBlockIndex} {map : UtxoMap}

/-! ## One block -/

theorem appendTxs_eq (hunspendable : isBIP30Unspendable pindex = false) (block_subsidy : BitVec 64)
    (block_undo : CBlockUndo) (txs : List CTransaction) (i : Nat) (running : RunningStats G) :
    appendTxs env menv pindex block_subsidy block_undo txs i running =
      forTxs (RunningStats.appendOutput menv) (RunningStats.appendPrevout menv) env pindex.nHeight
        block_undo txs i running := by
  induction txs generalizing i running with
  | nil => rfl
  | cons tx rest ih =>
    rw [appendTxs, forTxs, hunspendable]
    cases forTx (.appendOutput menv) (.appendPrevout menv) env pindex.nHeight
        block_undo i tx running with
    | error failure => rfl
    | ok next => exact ih _ _

/-- The block before, in the height index. -/
def Holds (menv : MuHashEnv G) (env : ChainEnv) (store : BlockStore) (index : CoinStatsIndex G)
    (pindex : CBlockIndex) : Prop :=
  index.heightIndex pindex.nHeight = some (pindex.getBlockHash, recordOf menv env store pindex)

theorem Holds.readPrevious_eq (h : index.Holds menv env store pindex) :
    index.readPrevious pindex.length (some pindex.getBlockHash) = .ok
      (recordOf menv env store pindex) := by
  have hbefore : index.heightIndex (pindex.length - 1) = _ := h
  unfold readPrevious
  rw [hbefore]
  simp

section

variable (h : ValidChain env store (hash :: pindex) map)

include h

/-- What `CustomAppend` does to the totals before it counts what is unclaimed. -/
theorem appendBlock_stat (hpindex : pindex ≠ [])
    (hlookup : store.lookup hash = some (hash :: pindex))
      (hprevious : index.Holds menv env store pindex)
    (block_subsidy : BitVec 64) (running : RunningStats G) :
    ∃ running', appendBlock env menv store (makeBlockInfo store (hash :: pindex)) block_subsidy
        index running = .ok running' ∧
      running'.stat = running.stat + (wrap (blockStat menv env store (hash :: pindex)) -
        wrap (single .m_total_subsidy (getBlockSubsidy pindex.length env.params))) := by
  cases h with
  | genesis => exact absurd rfl hpindex
  | @block _ _ before _ block blockundo coinbase rest fees parent hread hundo happlies hfresh
    hunspendable =>
    have hprev : (makeBlockInfo store (hash :: pindex)).prev_hash = some pindex.getBlockHash := by
      show (if pindex.isEmpty then none else some pindex.getBlockHash) = _
      rw [if_neg (by rw [List.isEmpty_iff]; exact hpindex)]
    obtain ⟨running', hloop, hstat⟩ := happlies.stat_append menv running
    refine ⟨running', ?_, ?_⟩
    · have hdata : (makeBlockInfo store (hash :: pindex)).data = some block := hread
      have hinfo : (makeBlockInfo store (hash :: pindex)).hash = hash := rfl
      have hat : (makeBlockInfo store (hash :: pindex)).height = pindex.length := rfl
      rw [appendBlock, hinfo, hlookup]
      simp only [hundo, hprev, hat, hprevious.readPrevious_eq, hdata]
      rw [appendTxs_eq hunspendable]
      exact hloop
    · rw [hstat, blockStat_eq hpindex hread hundo, map_add, add_sub_cancel_left]

/-- `CustomAppend` moves to the child and records it. -/
theorem customAppend_spec (hlookup : store.lookup hash = some (hash :: pindex))
    (hprevious : pindex ≠ [] → index.Holds menv env store pindex)
    (hstat : index.running.stat = wrap (chainStat menv env store pindex)) :
    ∃ running, customAppend env menv store (makeBlockInfo store (hash :: pindex)) index = .ok
        ⟨running, update index.heightIndex pindex.length
          (some (hash, recordOf menv env store (hash :: pindex))), index.hashIndex⟩ ∧
      running.stat = wrap (chainStat menv env store (hash :: pindex)) := by
  have hheight : (makeBlockInfo store (hash :: pindex)).height = pindex.length := rfl
  have hinfo : (makeBlockInfo store (hash :: pindex)).hash = hash := rfl
  have hissued := stat_add index.running .m_total_subsidy (getBlockSubsidy pindex.length env.params)
  unfold customAppend
  simp only [hheight, hinfo]
  generalize index.running.add .m_total_subsidy _ = issued at hissued ⊢
  obtain ⟨running, hrunning, hadded⟩ : ∃ running, (if 0 < pindex.length then
        appendBlock env menv store (makeBlockInfo store (hash :: pindex))
          (BitVec.ofInt 64 (getBlockSubsidy pindex.length env.params)) index issued
      else .ok ((issued.add .m_total_unspendable_amount
          (BitVec.ofInt 64 (getBlockSubsidy pindex.length env.params))).add
          .m_total_unspendables_genesis_block
            (BitVec.ofInt 64 (getBlockSubsidy pindex.length env.params)))) =
        .ok running ∧
      running.stat = wrap
        (chainStat menv env store pindex + blockStat menv env store (hash :: pindex)) := by
    by_cases hpindex : pindex = []
    · subst hpindex
      have hzero : nHeight [hash] = 0 := rfl
      refine ⟨_, if_neg (Nat.lt_irrefl 0), ?_⟩
      rw [stat_add, stat_add, hissued, hstat, blockStat, if_pos hzero]
      simp only [map_add, add_assoc]
      rfl
    · obtain ⟨running, hrunning, hadded⟩ :=
        appendBlock_stat h hpindex hlookup (hprevious hpindex) _ issued
      refine ⟨running, (if_pos (length_pos_iff.mpr hpindex)).trans hrunning, ?_⟩
      rw [hadded, hissued, hstat, map_add, add_assoc, add_sub_cancel]
  have hsettled := stat_appendUnclaimed hadded
  rw [map_add, settle_chainStat] at hsettled
  have hfinal := stat_finalize menv running.appendUnclaimed
  rw [hsettled] at hfinal
  refine ⟨_, ?_, hfinal⟩
  have hvalue :
      (⟨(running.appendUnclaimed.m_muhash.finalize menv).1, running.appendUnclaimed.totals⟩ : DBVal)
        =
      recordOf menv env store (hash :: pindex) := by
    rw [finalize_fst, hsettled]
    exact congrArg (DBVal.mk _) (congrArg Prod.fst hsettled)
  rw [hrunning]
  simp only [hvalue]

/-- `ReverseBlock` moves to the parent, and its assertions hold. -/
theorem reverseBlock_spec {block : CBlock} (hpindex : pindex ≠ [])
    (hread : store.readBlock (hash :: pindex) = some block)
      (hprevious : index.Holds menv env store pindex)
    (hstat : index.running.stat = wrap (chainStat menv env store (hash :: pindex))) :
    ∃ running, index.reverseBlock env menv store block (hash :: pindex) = .ok
      { index with running } ∧ running.stat = wrap (chainStat menv env store pindex) := by
  cases h with
  | genesis => exact absurd rfl hpindex
  | @block _ _ before _ block' blockundo coinbase rest fees parent hread' hundo happlies hfresh
    hunspendable =>
    obtain rfl : block = block' := Option.some.inj (hread.symm.trans hread')
    have hheight : nHeight (hash :: pindex) = pindex.length := rfl
    have hread_out : index.readForReverse store (hash :: pindex) =
        .ok (blockundo, recordOf menv env store pindex) := by
      have hpprev : .pprev (hash :: pindex) = pindex := rfl
      unfold readForReverse
      rw [hheight, if_pos (length_pos_iff.mpr hpindex), hundo, hpprev, hprevious.readPrevious_eq]
    obtain ⟨running, hloop, hreversed⟩ :=
      happlies.stat_reverse menv (index.running.sub .m_total_subsidy
      (BitVec.ofInt 64 (getBlockSubsidy pindex.length env.params)))
    have hleft : running.stat =
        wrap (chainStat menv env store (hash :: pindex) - blockStat menv env store
          (hash :: pindex)) := by
      rw [hreversed, stat_sub, hstat, blockStat_eq hpindex hread hundo, map_sub, map_add, sub_sub]
    have hsettled := stat_reverseUnclaimed hleft
    have hback :
        settle (chainStat menv env store (hash :: pindex) - blockStat menv env store
          (hash :: pindex)) =
        chainStat menv env store pindex := by
      rw [map_sub, settle_chainStat, chainStat, add_sub_cancel_right]
    rw [hback] at hsettled
    have hfinal := stat_finalize menv running.reverseUnclaimed
    rw [hsettled] at hfinal
    refine ⟨_, ?_, hfinal⟩
    have hmuhash : (recordOf menv env store pindex).muhash =
        (running.reverseUnclaimed.m_muhash.finalize menv).1 := by
      rw [finalize_fst, hsettled]
      rfl
    have htotals : running.reverseUnclaimed.totals = (recordOf menv env store pindex).totals :=
      congrArg Prod.fst hsettled
    unfold reverseBlock
    rw [hheight, hread_out]
    simp only
    rw [hloop]
    simp only
    rw [← hmuhash, htotals, if_neg (by simp), if_neg (by simp)]

end

/-! ## Going back -/

omit [CommGroup G] in
/-- Records are copied to where their hashes say, and what is there stays. -/
theorem copyHeightIndexToHashIndex_spec (record : Uint256 → DBVal) {heights : List Nat}
    (h : ∀ height ∈ heights, ∃ hash, index.heightIndex height = some (hash, record hash)) :
    ∃ hashIndex, index.copyHeightIndexToHashIndex heights = .ok { index with hashIndex } ∧
      (∀ hash, index.hashIndex hash = some (record hash) → hashIndex hash = some (record hash)) ∧
      ∀ height ∈ heights, ∀ hash value, index.heightIndex height = some (hash, value) →
        hashIndex hash = some (record hash) := by
  induction heights generalizing index with
  | nil =>
    refine ⟨index.hashIndex, rfl, fun _ hkept => hkept, ?_⟩
    intro height hheight
    cases hheight
  | cons height rest ih =>
    obtain ⟨hash, hhash⟩ := h height mem_cons_self
    obtain ⟨hashIndex, hcopy, hkept, hcopied⟩ := @ih
      { index with hashIndex := update index.hashIndex hash (some (record hash)) }
      fun later hlater => h later (mem_cons_of_mem _ hlater)
    refine ⟨hashIndex, ?_, ?_, ?_⟩
    · rw [copyHeightIndexToHashIndex, hhash]
      exact hcopy
    · intro other hother
      apply hkept
      by_cases heq : other = hash
      · subst heq
        exact update_self _ _ _
      · exact (update_of_ne heq _ _).trans hother
    · intro later hlater other value hvalue
      rcases mem_cons.mp hlater with rfl | hrest
      · rw [hhash] at hvalue
        obtain ⟨rfl, -⟩ := Prod.mk.inj (Option.some.inj hvalue)
        exact hkept hash (update_self _ _ _)
      · exact hcopied later hrest other value hvalue

/-- The loop of `CustomRewind` leads to every proper ancestor. -/
theorem reverseBlocks_spec {current target : CBlockIndex} (h : ValidChain env store current map)
    (hsuffix : target <:+ current) (hne : target ≠ []) (hproper : target ≠ current)
    (hholds : ∀ block, block <:+ current → block ≠ [] → index.Holds menv env store block)
    (hstat : index.running.stat = wrap (chainStat menv env store current)) :
    ∃ running, index.reverseBlocks env menv store target current = .ok { index with running } ∧
      running.stat = wrap (chainStat menv env store target) := by
  induction current generalizing index map with
  | nil => exact absurd rfl h.ne_nil
  | cons hash pprev ih =>
    have hbelow : target <:+ pprev := by
      rcases suffix_cons_iff.mp hsuffix with heq | hbelow
      · exact absurd heq hproper
      · exact hbelow
    have hpprev := hbelow.ne_nil hne
    obtain ⟨block, before, hread, hparent⟩ : ∃ block before,
        store.readBlock (hash :: pprev) = some block ∧ ValidChain env store pprev before := by
      cases h with
      | genesis => exact absurd rfl hpprev
      | block parent hread => exact ⟨_, _, hread, parent⟩
    obtain ⟨running, hreverse, hback⟩ := reverseBlock_spec h hpprev hread
      (hholds pprev (suffix_cons _ _) hpprev) hstat
    rw [reverseBlocks, hread]
    simp only
    rw [hreverse]
    simp only
    by_cases hdone : target = pprev
    · subst hdone
      rw [if_pos rfl]
      exact ⟨running, rfl, hback⟩
    · rw [if_neg hdone]
      exact ih hparent hbelow hdone
        (fun block hblock => hholds block (hblock.trans (suffix_cons _ _))) hback

/-! ## Runs -/

/-- What is true of the index at the current block, after it was at each of the appended ones. -/
structure Records (menv : MuHashEnv G) (env : ChainEnv) (store : BlockStore)
    (index : CoinStatsIndex G) (current : CBlockIndex) (appended : List CBlockIndex) : Prop where
  stat : index.running.stat = wrap (chainStat menv env store current)
  active : ∀ block, block <:+ current → block ≠ [] → block ∈ appended ∧
    index.Holds menv env store block
  known : ∀ block ∈ appended, block ≠ [] ∧ store.lookup block.getBlockHash = some block
  taken : ∀ block ∈ appended, ∃ other ∈ appended, other.nHeight = block.nHeight ∧
    index.Holds menv env store other
  stale : ∀ block ∈ appended, ¬ block <:+ current →
    index.hashIndex block.getBlockHash = some (recordOf menv env store block)

theorem records_start : (start : CoinStatsIndex G).Records menv env store [] [] where
  stat := by
    apply Prod.ext
    · rfl
    show Additive.ofMul ((1 : G) / 1) = 0
    rw [div_one]
    rfl
  active := fun _ hsuffix hne => absurd (suffix_nil.mp hsuffix) hne
  known := nofun
  taken := nofun
  stale := nofun

theorem Records.append {appended : List CBlockIndex}
    (h : index.Records menv env store pindex appended)
    (hvalid : ValidChain env store (hash :: pindex) map)
      (hlookup : store.lookup hash = some (hash :: pindex)) :
    ∃ index', customAppend env menv store (makeBlockInfo store (hash :: pindex))
      index = .ok index' ∧
      index'.Records menv env store (hash :: pindex) ((hash :: pindex) :: appended) := by
  obtain ⟨_, happend, hstat⟩ := customAppend_spec hvalid hlookup
    (fun hpindex => (h.active pindex suffix_rfl hpindex).2) h.stat
  have hheight : nHeight (hash :: pindex) = pindex.length := rfl
  refine ⟨_, happend, hstat, ?_, ?_, ?_, ?_⟩
  · intro block hblock hne
    rcases suffix_cons_iff.mp hblock with rfl | hbelow
    · exact ⟨mem_cons_self, update_self _ _ _⟩
    obtain ⟨hmem, hholds⟩ := h.active block hbelow hne
    have hlow : nHeight block ≠ pindex.length := by
      have hlength := hbelow.length_le
      have hpos := length_pos_iff.mpr hne
      unfold nHeight
      omega
    exact ⟨mem_cons_of_mem _ hmem, (update_of_ne hlow _ _).trans hholds⟩
  · intro block hmem
    rcases mem_cons.mp hmem with rfl | hold
    · exact ⟨cons_ne_nil _ _, hlookup⟩
    · exact h.known block hold
  · intro block hmem
    by_cases hsame : nHeight block = pindex.length
    · exact ⟨hash :: pindex, mem_cons_self, hheight.trans hsame.symm, update_self _ _ _⟩
    rcases mem_cons.mp hmem with rfl | hold
    · exact absurd hheight hsame
    obtain ⟨other, hother, hlevel, hholds⟩ := h.taken block hold
    refine ⟨other, mem_cons_of_mem _ hother, hlevel, ?_⟩
    rw [← hlevel] at hsame
    exact (update_of_ne hsame _ _).trans hholds
  · intro block hmem hnot
    rcases mem_cons.mp hmem with rfl | hold
    · exact absurd suffix_rfl hnot
    · exact h.stale block hold fun hbelow => hnot (hbelow.trans (suffix_cons _ _))

theorem Records.rewind {current target : CBlockIndex} {appended : List CBlockIndex}
    (h : index.Records menv env store current appended) (hvalid : ValidChain env store current map)
    (hsuffix : target <:+ current) (hne : target ≠ []) (hproper : target ≠ current) :
    ∃ index', customRewind env menv store current.ref target.ref index = .ok index' ∧
      index'.Records menv env store target appended := by
  have hcurrent := h.known current (h.active current suffix_rfl hvalid.ne_nil).1
  have htarget := h.known target (h.active target hsuffix hne).1
  have hlength := hsuffix.length_le
  have hpos := length_pos_iff.mpr hne
  have hheights : ∀ height ∈ range' target.nHeight (current.nHeight + 1 - target.nHeight),
      ∃ hash, index.heightIndex height =
        some (hash, recordOf menv env store ((store.lookup hash).getD [])) := by
    intro height hheight
    have hbounds := mem_range'_1.mp hheight
    unfold nHeight at hbounds
    obtain ⟨hat, hlevel, -⟩ := @getAncestor_spec current height (by omega)
    have hsome : current.getAncestor height ≠ [] := length_pos_iff.mp (by omega)
    obtain ⟨hmem, hholds⟩ := h.active _ hat hsome
    refine ⟨(current.getAncestor height).getBlockHash, ?_⟩
    rw [(h.known _ hmem).2, Option.getD_some, ← hholds]
    congr 1
    unfold nHeight
    omega
  obtain ⟨hashIndex, hcopy, hkept, hcopied⟩ := copyHeightIndexToHashIndex_spec
    (fun hash => recordOf menv env store ((store.lookup hash).getD [])) hheights
  have hholds : ∀ block, block <:+ current → block ≠ [] →
      Holds menv env store { index with hashIndex } block :=
      fun block hblock hne => (h.active block hblock hne).2
  obtain ⟨running, hreverse, hstat⟩ := reverseBlocks_spec hvalid hsuffix hne hproper hholds h.stat
  refine ⟨{ index with hashIndex, running }, ?_, hstat, ?_, h.known, h.taken, ?_⟩
  · unfold customRewind ref
    rw [hcopy]
    rw [hcurrent.2, htarget.2]
    exact hreverse
  · exact fun block hblock hne => h.active block (hblock.trans hsuffix) hne
  · intro block hmem hnot
    obtain ⟨hblock, hfound⟩ := h.known block hmem
    have hrecord : recordOf menv env store ((store.lookup block.getBlockHash).getD []) =
        recordOf menv env store block := by
      rw [hfound, Option.getD_some]
    rw [← hrecord]
    by_cases hbelow : block <:+ current
    · apply hcopied block.nHeight
      · rw [mem_range'_1]
        have hle := hbelow.length_le
        have hlow : target.length < block.length := by
          by_contra hlow
          exact hnot (suffix_of_suffix_length_le hbelow hsuffix (by omega))
        unfold nHeight
        omega
      · exact (h.active block hbelow hblock).2
    · apply hkept
      rw [hrecord]
      exact h.stale block hmem hbelow

end CoinStatsIndex

end BtcSharp
