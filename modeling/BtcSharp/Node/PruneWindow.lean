/-
# The window and the target of pruning

A loop of pruning gives up some of the files in its range, and each of them is looked at as it was
before the loop. The range is derived from the tip, the prune locks, the manual height and the base
of a snapshot, so that blocks outside of it stay. The usage that the automatic loop counts down is
that of the files that are left.

The index on disk never refers to a file that is gone: it is behind the one in memory only for
entries that are yet to be written, and files are removed when all of them are.
-/

import BtcSharp.Node.Prune
import Mathlib.Data.List.GetD

namespace BtcSharp

open Function List Math

/-- A list that is made longer by default values looks the same. -/
theorem getD_append_replicate {α : Type*} (values : List α) (count i : Nat) (default : α) :
    (values ++ replicate count default).getD i default = values.getD i default := by
  simp only [getD_eq_getElem?_getD, getElem?_append, getElem?_replicate]
  split
  · rfl
  next hlong =>
  rw [getElem?_eq_none (Nat.le_of_not_lt hlong)]
  split <;> rfl

theorem BlockManager.fileInfo_setFileInfo (s : BlockManager) (nFile : Nat) (info : CBlockFileInfo) :
    (s.setFileInfo nFile info).fileInfo = update s.fileInfo nFile info := by
  ext1 other
  by_cases hother : nFile = other
  · subst hother
    rw [update_self]
    unfold fileInfo setFileInfo
    rw [getD_eq_getElem?_getD, getElem?_set, if_pos rfl, if_pos (by simp; omega)]
    rfl
  rw [update_of_ne (Ne.symm hother)]
  unfold fileInfo setFileInfo
  rw [getD_eq_getElem?_getD, getElem?_set, if_neg hother]
  exact getD_append_replicate _ _ _ _

namespace BlockStorage

variable {s t : BlockStorage} {hash : Uint256} {entry : BlockFileEntry} {view : ChainstateView}
  {options : PruneOptions}

/-! ## Giving up files -/

/-- An entry without data. -/
def cleared (entry : BlockFileEntry) : BlockFileEntry :=
  { entry with haveData := false, haveUndo := false, nFile := 0, nDataPos := 0, nUndoPos := 0 }

/-- Files are given up one after another. -/
def pruneAll (files : List Nat) (s : BlockStorage) : BlockStorage := files.foldl pruneOneBlockFile s

theorem fileInfo_one (s : BlockStorage) (fileNumber : Nat) :
    (s.pruneOneBlockFile fileNumber).blockman.fileInfo =
      update s.blockman.fileInfo fileNumber {} := BlockManager.fileInfo_setFileInfo _ _ _

theorem entry_one (s : BlockStorage) (fileNumber : Nat) (hash : Uint256) :
    (s.pruneOneBlockFile fileNumber).blockman.entry hash =
      (s.blockman.entry hash).map (BlockFileEntry.pruned fileNumber) := by
  show lookup hash (s.blockman.m_block_index.map _) = _
  rw [lookup_map_values]
  rfl

variable {fileNumber nHeight : Nat} {files chosen : List Nat} {info : CBlockFileInfo}
    {p : BlockStorage}

/-- What is not marked to be written did not change. -/
theorem one_of_not_dirty (h : hash ∉ (s.pruneOneBlockFile fileNumber).m_dirty_blockindex) :
    hash ∉ s.m_dirty_blockindex ∧
      (s.pruneOneBlockFile fileNumber).blockman.entry hash = s.blockman.entry hash := by
  have hparts := (not_congr mem_append).mp h
  push Not at hparts
  refine ⟨hparts.1, ?_⟩
  rw [entry_one]
  cases hentry : s.blockman.entry hash with
  | none => rfl
  | some entry =>
    have hother : entry.nFile ≠ fileNumber := by
      intro hsame
      apply hparts.2
      refine mem_map.mpr ⟨(hash, entry), mem_filter.mpr ⟨mem_of_lookup hentry, ?_⟩, rfl⟩
      exact beq_iff_eq.mpr hsame
    rw [Option.map_some, BlockFileEntry.pruned, if_neg hother]

theorem fileInfo_pruneAll (files : List Nat) (s : BlockStorage) (nFile : Nat) :
    (pruneAll files s).blockman.fileInfo nFile =
    if nFile ∈ files then {} else s.blockman.fileInfo nFile := by
  induction files generalizing s with
  | nil => rfl
  | cons fileNumber rest ih =>
    show (pruneAll rest (s.pruneOneBlockFile fileNumber)).blockman.fileInfo nFile = _
    rw [ih, fileInfo_one]
    by_cases hself : nFile = fileNumber
    · rw [hself, update_self, if_pos mem_cons_self, ite_self]
    · simp [hself]

theorem entry_pruneAll (files : List Nat) (s : BlockStorage) (hash : Uint256) :
    (pruneAll files s).blockman.entry hash =
      (s.blockman.entry hash).map fun entry => if entry.nFile ∈ files then cleared
        entry else entry := by
  induction files generalizing s with
  | nil => simp [pruneAll]
  | cons fileNumber rest ih =>
    show (pruneAll rest (s.pruneOneBlockFile fileNumber)).blockman.entry hash = _
    rw [ih, entry_one, Option.map_map]
    congr 1
    ext1 entry
    show (if (entry.pruned fileNumber).nFile ∈ rest then _ else _) = _
    unfold BlockFileEntry.pruned
    by_cases hself : entry.nFile = fileNumber
    · have hmem : entry.nFile ∈ fileNumber :: rest := by
        rw [hself]
        exact mem_cons_self
      rw [if_pos hmem, if_pos hself]
      exact ite_self _
    · simp [hself]

theorem pruneAll_of_not_dirty (h : hash ∉ (pruneAll files s).m_dirty_blockindex) :
    hash ∉ s.m_dirty_blockindex ∧
    (pruneAll files s).blockman.entry hash = s.blockman.entry hash := by
  induction files generalizing s with
  | nil => exact ⟨h, rfl⟩
  | cons fileNumber rest ih =>
    have hrest := ih h
    have hone := one_of_not_dirty hrest.1
    exact ⟨hone.1, hrest.2.trans hone.2⟩

/-- What is on disk stays. -/
theorem disk_pruneAll (files : List Nat) (s : BlockStorage) :
    (pruneAll files s).diskIndex = s.diskIndex ∧
      (pruneAll files s).blockFileExists = s.blockFileExists ∧
      (pruneAll files s).undoFileExists = s.undoFileExists ∧
      (pruneAll files s).coins = s.coins := by
  induction files generalizing s with
  | nil => exact ⟨rfl, rfl, rfl, rfl⟩
  | cons fileNumber rest ih => exact ih (s.pruneOneBlockFile fileNumber)

/-! ## Usage -/

theorem sum_set {values : List Nat} {i : Nat} (h : i < values.length) (value : Nat) :
    (values.set i value).sum + values[i] = values.sum + value := by
  have hsplit := sum_take_add_sum_drop values i
  rw [drop_eq_getElem_cons h, sum_cons] at hsplit
  rw [List.sum_set, if_pos h]
  omega

/-- The usage goes down by what the file took up. -/
theorem usage_one (s : BlockStorage) (fileNumber : Nat) :
    (s.pruneOneBlockFile fileNumber).calculateCurrentUsage + bytesOf
      (s.blockman.fileInfo fileNumber) =
      s.calculateCurrentUsage := by
  generalize hlist : s.blockman.m_blockfile_info ++ replicate
    (fileNumber + 1 - s.blockman.m_blockfile_info.length) ({} : CBlockFileInfo) = infos
  have hlength : fileNumber < (infos.map bytesOf).length := by
    rw [length_map, ← hlist, length_append, length_replicate]
    omega
  have hafter : (s.pruneOneBlockFile fileNumber).calculateCurrentUsage =
      ((infos.map bytesOf).set fileNumber 0).sum := by
    rw [← hlist]
    show ((set _ fileNumber ({} : CBlockFileInfo)).map bytesOf).sum = _
    rw [map_set]
    rfl
  have hbefore : s.calculateCurrentUsage = (infos.map bytesOf).sum := by
    rw [← hlist, map_append, sum_append, map_replicate, sum_replicate]
    rfl
  have hfile : (infos.map bytesOf)[fileNumber] = bytesOf (s.blockman.fileInfo fileNumber) := by
    have hlookup : infos.getD fileNumber {} = s.blockman.fileInfo fileNumber := by
      rw [← hlist]
      exact getD_append_replicate _ _ _ _
    rw [getElem_map, ← hlookup, getD_eq_getElem infos {} (length_map bytesOf ▸ hlength)]
  rw [hafter, hbefore, ← hfile, sum_set hlength, Nat.add_zero]

/-! ## The loops -/

/-- Manual pruning is the loop without a target. -/
theorem pruneManualLoop_eq (range : Int × Int) (files : List Nat) (nCurrentUsage : Nat)
    (s : BlockStorage) :
    pruneManualLoop range files s = pruneLoop range 0 0 files nCurrentUsage s := by
  induction files generalizing s nCurrentUsage with
  | nil => rfl
  | cons fileNumber rest ih =>
    rw [pruneManualLoop, pruneLoop]
    by_cases hempty : (s.blockman.fileInfo fileNumber).nSize = 0
    · rw [if_pos (Or.inl hempty), if_pos hempty]
      exact ih _ s
    rw [if_neg hempty, if_neg (Nat.not_lt_zero _)]
    by_cases hrange : InRange range (s.blockman.fileInfo fileNumber)
    · rw [if_neg (by tauto), if_neg (not_not_intro hrange), ← ih]
    · rw [if_pos (Or.inr hrange), if_pos hrange]
      exact ih _ s

/-- The file is not empty, and its heights are in the range. -/
def Eligible (range : Int × Int) (fileinfo : CBlockFileInfo) : Prop :=
  fileinfo.nSize ≠ 0 ∧ InRange range fileinfo

instance (range : Int × Int) (fileinfo : CBlockFileInfo) : Decidable (Eligible range fileinfo) :=
  inferInstanceAs (Decidable (_ ≠ _ ∧ _))

/-- What the files of a list take up that can be given up. -/
def taken (range : Int × Int) (s : BlockStorage) (files : List Nat) : Nat :=
  (((files.map s.blockman.fileInfo).filter (Eligible range ·)).map bytesOf).sum

/-- The file can be given up, and without those before it the target is not met. -/
def GivenUp (range : Int × Int) (nBuffer target : Nat) (s : BlockStorage) (before : List Nat)
    (fileNumber : Nat) : Prop :=
  Eligible range (s.blockman.fileInfo fileNumber) ∧
    target ≤ s.calculateCurrentUsage - taken range s before + nBuffer

/-- What a loop of pruning does. -/
structure LoopResult (range : Int × Int) (nBuffer target : Nat) (files : List Nat)
    (s : BlockStorage) (chosen : List Nat) : Prop where
  sublist : chosen.Sublist files
  mem : ∀ fileNumber, fileNumber ∈ chosen ↔ ∃ i, files[i]? = some fileNumber ∧
    GivenUp range nBuffer target s (files.take i) fileNumber
  /-- A file is given up as long as the target is not met. -/
  needed : ∀ before fileNumber after, chosen = before ++ fileNumber :: after →
    target ≤ (pruneAll before s).calculateCurrentUsage + nBuffer
  /-- If it is not met at the end, then no file is left in the range. -/
  exhausted : target ≤ (pruneAll chosen s).calculateCurrentUsage + nBuffer → ∀ fileNumber ∈ files,
    ((pruneAll chosen s).blockman.fileInfo fileNumber).nSize ≠ 0 →
      ¬ InRange range ((pruneAll chosen s).blockman.fileInfo fileNumber)

variable {range : Int × Int} {nBuffer target : Nat} {rest : List Nat}
  {last nManualPruneHeight : Int} {inputs : FlushInputs}

theorem exists_getElem?_cons {α : Type*} {first other : α} {rest : List α} {P : List α → Prop} :
    (∃ i : Nat, (first :: rest)[i]? = some other ∧ P ((first :: rest).take i)) ↔
      first = other ∧ P [] ∨ ∃ i : Nat, rest[i]? = some other ∧ P (first :: rest.take i) := by
  constructor
  · rintro ⟨_ | i, hi, hP⟩
    · exact .inl ⟨Option.some.inj hi, hP⟩
    · exact .inr ⟨i, hi, hP⟩
  · rintro (⟨rfl, hP⟩ | ⟨i, hi, hP⟩)
    · exact ⟨0, rfl, hP⟩
    · exact ⟨i + 1, hi, hP⟩

/-- A file that is not given up. -/
theorem LoopResult.skip (h : LoopResult range nBuffer target rest s chosen)
    (hnew : fileNumber ∉ rest) (hskip : ¬ Eligible range (s.blockman.fileInfo fileNumber)) :
    LoopResult range nBuffer target (fileNumber :: rest) s chosen where
  sublist := h.sublist.cons fileNumber
  mem := by
    intro other
    have htaken : ∀ before, taken range s (fileNumber :: before) = taken range s before := by
      intro before
      unfold taken
      rw [map_cons, filter_cons_of_neg (by simpa using hskip)]
    rw [h.mem, exists_getElem?_cons (P := (GivenUp range nBuffer target s · other))]
    unfold GivenUp
    simp only [htaken]
    constructor
    · exact .inr
    · rintro (⟨rfl, heligible, -⟩ | hrest)
      · exact absurd heligible hskip
      · exact hrest
  needed := h.needed
  exhausted := by
    refine fun hover => forall_mem_cons.mpr ⟨?_, h.exhausted hover⟩
    have hkept : fileNumber ∉ chosen := fun hchosen => hnew (h.sublist.subset hchosen)
    rw [fileInfo_pruneAll, if_neg hkept]
    exact fun hsize hrange => hskip ⟨hsize, hrange⟩

/-- After one file was given up, the others can be given up as before. -/
theorem givenUp_one {before : List Nat} {other : Nat} (hother : other ≠ fileNumber)
    (hbefore : fileNumber ∉ before) (hthere : Eligible range (s.blockman.fileInfo fileNumber)) :
    GivenUp range nBuffer target (s.pruneOneBlockFile fileNumber) before other ↔
      GivenUp range nBuffer target s (fileNumber :: before) other := by
  have hinfo : ∀ i, i ≠ fileNumber →
      (s.pruneOneBlockFile fileNumber).blockman.fileInfo i = s.blockman.fileInfo i := by
    intro i hi
    rw [fileInfo_one, update_of_ne hi]
  have htaken : taken range (s.pruneOneBlockFile fileNumber) before = taken range s before := by
    unfold taken
    rw [map_congr_left fun i hi => hinfo i fun heq => hbefore (heq ▸ hi)]
  have husage := usage_one s fileNumber
  have hfirst : taken range s (fileNumber :: before) =
      bytesOf (s.blockman.fileInfo fileNumber) + taken range s before := by
    unfold taken
    rw [map_cons, filter_cons_of_pos (by simpa using hthere), map_cons, sum_cons]
  unfold GivenUp
  rw [hinfo other hother, htaken, hfirst, ← husage, Nat.add_comm _ (bytesOf _),
    Nat.add_sub_add_left]

/-- A file that is given up. -/
theorem LoopResult.prune
    (h : LoopResult range nBuffer target rest (s.pruneOneBlockFile fileNumber) chosen)
      (hnew : fileNumber ∉ rest) (hthere : Eligible range (s.blockman.fileInfo fileNumber))
    (hneeded : target ≤ s.calculateCurrentUsage + nBuffer) :
    LoopResult range nBuffer target (fileNumber :: rest) s (fileNumber :: chosen) where
  sublist := h.sublist.cons_cons fileNumber
  mem := by
    intro other
    rw [mem_cons, h.mem, exists_getElem?_cons (P := (GivenUp range nBuffer target s · other))]
    refine or_congr ⟨fun heq => ⟨heq.symm, heq ▸ hthere, hneeded⟩, fun hfirst => hfirst.1.symm⟩
      (exists_congr fun i => and_congr_right fun hi => ?_)
    exact givenUp_one (fun heq => hnew (heq ▸ mem_of_getElem? hi))
      (fun hbefore => hnew (mem_of_mem_take hbefore)) hthere
  needed := by
    intro before other after hsplit
    cases before with
    | nil => exact hneeded
    | cons first before =>
      obtain ⟨rfl, htail⟩ := cons.inj hsplit
      exact h.needed before other after htail
  exhausted := by
    refine fun hover => forall_mem_cons.mpr ⟨?_, h.exhausted hover⟩
    rw [fileInfo_pruneAll, if_pos mem_cons_self]
    exact absurd rfl

theorem pruneLoop_spec (range : Int × Int) (nBuffer target : Nat) (hnodup : files.Nodup)
    (s : BlockStorage) : ∃ chosen, pruneLoop range nBuffer target files s.calculateCurrentUsage s =
      (chosen, pruneAll chosen s) ∧ LoopResult range nBuffer target files s chosen := by
  induction files generalizing s with
  | nil => exact ⟨[], rfl, .refl _, by simp, by simp, nofun⟩
  | cons fileNumber rest ih =>
    obtain ⟨hnew, hrest⟩ := nodup_cons.mp hnodup
    rw [pruneLoop]
    split
    · next hempty =>
      obtain ⟨chosen, hloop, hresult⟩ := ih hrest s
      exact ⟨chosen, hloop, hresult.skip hnew fun hthere => hthere.1 hempty⟩
    next hsize =>
    split
    · next hbelow =>
      refine ⟨[], rfl, nil_sublist _, fun other => iff_of_false not_mem_nil ?_, by simp,
        fun hover => absurd hover (Nat.not_le_of_lt hbelow)⟩
      rintro ⟨i, _, _, htarget⟩
      omega
    next hbelow =>
    split
    · next hrange =>
      obtain ⟨chosen, hloop, hresult⟩ := ih hrest s
      exact ⟨chosen, hloop, hresult.skip hnew fun hthere => hrange hthere.2⟩
    · next hrange =>
      have husage := usage_one s fileNumber
      have hnext : s.calculateCurrentUsage - bytesOf (s.blockman.fileInfo fileNumber) =
          (s.pruneOneBlockFile fileNumber).calculateCurrentUsage := by omega
      obtain ⟨chosen, hloop, hresult⟩ := ih hrest (s.pruneOneBlockFile fileNumber)
      rw [hnext, hloop]
      exact ⟨fileNumber :: chosen, rfl,
        hresult.prune hnew ⟨hsize, not_not.mp hrange⟩ (Nat.le_of_not_lt hbelow)⟩

/-! ## The window -/

/-- A prune lock holds the last height down. -/
theorem foldl_locks_le {locks : List PruneLockInfo} {start bound : Int} (h : start ≤ max 1 bound) :
    locks.foldl (fun last_prune lock =>
      if lock.height_first = 2 ^ 31 - 1 then last_prune
      else max 1 (min last_prune (lock.height_first - PRUNE_LOCK_BUFFER - 1))) start ≤
        max 1 bound := by
  refine foldlRecOn (motive := (· ≤ max 1 bound)) locks _ h fun last hlast lock _ => ?_
  split <;> omega

theorem lastPrune_le_lock (view : ChainstateView) {lock : PruneLockInfo}
    (hlock : lock ∈ options.m_prune_locks) (hforce : lock.InForce) :
    lastPrune view options ≤ max 1 (lock.height_first - PRUNE_LOCK_BUFFER - 1) := by
  unfold lastPrune
  generalize view.height = start
  generalize options.m_prune_locks = locks at hlock
  induction locks generalizing start with
  | nil => cases hlock
  | cons first rest ih =>
    rw [foldl_cons]
    rcases mem_cons.mp hlock with rfl | hlock
    · apply foldl_locks_le
      rw [if_neg hforce]
      omega
    · exact ih _ hlock

theorem lastPrune_nonneg (options : PruneOptions) (h : 0 ≤ view.height) :
    0 ≤ lastPrune view options := by
  refine foldlRecOn options.m_prune_locks _ h fun last hlast lock _ => ?_
  split <;> omega

/-- The window in which a call prunes: beside the tip, the prune locks, the manual height and the
base of a snapshot. -/
structure InWindow (view : ChainstateView) (options : PruneOptions) (nManualPruneHeight : Int)
    (nHeight : Int) : Prop where
  tip : nHeight ≤ view.height - MIN_BLOCKS_TO_KEEP
  locks : ∀ lock ∈ options.m_prune_locks, lock.InForce →
    nHeight < lock.height_first - PRUNE_LOCK_BUFFER
  manual : 0 < nManualPruneHeight → nHeight ≤ nManualPruneHeight
  snapshot : ∀ base, view.snapshotBaseHeight = some base → 1 < view.chainstates → base < nHeight

/-- The last height for a call. -/
def lastHeight (view : ChainstateView) (options : PruneOptions) (nManualPruneHeight : Int) : Int :=
  if 0 < nManualPruneHeight then min (lastPrune view options)
    nManualPruneHeight else lastPrune view options

theorem lastHeight_nonneg (options : PruneOptions) (nManualPruneHeight : Int)
    (h : 0 ≤ view.height) : 0 ≤ lastHeight view options nManualPruneHeight := by
  have hlock := lastPrune_nonneg options h
  unfold lastHeight
  split <;> omega

/-- The heights of a file that is in the range are well below the tip. -/
theorem nHeight_le_of_inRange (hlow : 0 ≤ last)
    (hrange : InRange (getPruneRange view last) info) (hlast : nHeight ≤ info.nHeightLast) :
    nHeight = 0 ∨ (nHeight : Int) ≤ last ∧ (nHeight : Int) ≤ view.height - MIN_BLOCKS_TO_KEEP := by
  unfold InRange getPruneRange at hrange
  push Not at hrange
  have hbound := hrange.1
  unfold toUnsigned at hbound
  split at hbound
  · omega
  · dsimp only at hbound
    omega

/-- They are above the base of a snapshot. -/
theorem base_lt_of_inRange {base : Int} (htip : 0 < view.height)
    (hrange : InRange (getPruneRange view last) info) (hfirst : info.nHeightFirst ≤ nHeight)
    (hbase : view.snapshotBaseHeight = some base) (hsync : 1 < view.chainstates) :
      base < nHeight := by
  unfold InRange getPruneRange at hrange
  push Not at hrange
  have hstart := hrange.2
  have hbounds := view.hbase base hbase
  rw [if_neg (Int.not_le.mpr htip), hbase] at hstart
  dsimp only at hstart
  unfold toUnsigned at hstart
  omega

/-- The heights of a file that is in the range are in the window, from the second block on. -/
theorem inWindow_of_inRange (hheight : 0 ≤ view.height)
    (hrange : InRange (getPruneRange view (lastHeight view options nManualPruneHeight)) info)
    (hfirst : info.nHeightFirst ≤ nHeight) (hlast : nHeight ≤ info.nHeightLast)
      (htwo : 2 ≤ nHeight) : InWindow view options nManualPruneHeight nHeight := by
  obtain ⟨hbelow, htip⟩ :=
    (nHeight_le_of_inRange (lastHeight_nonneg options nManualPruneHeight hheight)
    hrange hlast).resolve_left (by omega)
  have hkeep : MIN_BLOCKS_TO_KEEP = 288 := rfl
  refine ⟨htip, ?_, ?_, fun base => base_lt_of_inRange (by omega) hrange hfirst⟩
  · intro lock hlock hforce
    have hbound := lastPrune_le_lock view hlock hforce
    have hlastHeight : lastHeight view options nManualPruneHeight ≤ lastPrune view options := by
      unfold lastHeight
      split <;> omega
    omega
  · intro hmanual
    unfold lastHeight at hbelow
    omega

/-- A call gives up a file, by what is known before: the window, the heights and sizes of the files,
and the target if the height is not given. -/
structure PrunesFile (view : ChainstateView) (options : PruneOptions) (nManualPruneHeight : Int)
    (s : BlockStorage) (fileNumber : Nat) : Prop where
  asked : options.m_prune_mode ∧ (options.m_check_for_pruning ∨ 0 < nManualPruneHeight) ∧
    options.m_blockfiles_indexed
  height : 0 ≤ view.height
  last : fileNumber < s.blockman.maxBlockfileNum
  eligible : Eligible (getPruneRange view (lastHeight view options nManualPruneHeight))
    (s.blockman.fileInfo fileNumber)
  target : nManualPruneHeight ≤ 0 → view.pruneAfterHeight < view.height ∧
    pruneTarget view options ≤ s.calculateCurrentUsage + chunkBuffer ∧
    pruneTarget view options ≤ s.calculateCurrentUsage -
      taken (getPruneRange view (lastPrune view options)) s (List.range fileNumber) +
      pruneBuffer view

theorem pruneTarget_ne_zero (view : ChainstateView) (options : PruneOptions) :
    pruneTarget view options ≠ 0 := by
  unfold pruneTarget MIN_DISK_SPACE_FOR_BLOCK_FILES
  omega

/-- The loop over all files. -/
theorem LoopResult.mem_range {n : Nat} (h : LoopResult range nBuffer target (List.range n) s chosen)
    (fileNumber : Nat) : fileNumber ∈ chosen ↔ fileNumber < n ∧
      GivenUp range nBuffer target s (List.range fileNumber) fileNumber := by
  rw [h.mem]
  constructor
  · rintro ⟨i, hi, hgiven⟩
    obtain ⟨hlt, heq⟩ := List.getElem?_eq_some_iff.mp hi
    rw [length_range] at hlt
    rw [getElem_range] at heq
    subst heq
    rw [take_range, Nat.min_eq_left (Nat.le_of_lt hlt)] at hgiven
    exact ⟨hlt, hgiven⟩
  · rintro ⟨hlt, hgiven⟩
    refine ⟨fileNumber, getElem?_range hlt, ?_⟩
    rwa [take_range, Nat.min_eq_left (Nat.le_of_lt hlt)]

/-- The files that a call gives up. A call gives up nothing or runs the loop, with or without a
target. -/
theorem findFiles_spec (view : ChainstateView) (options : PruneOptions) (nManualPruneHeight : Int)
    (s : BlockStorage) :
    ∃ chosen, findFiles view options nManualPruneHeight s = (chosen, pruneAll chosen s) ∧
      ∀ fileNumber, fileNumber ∈ chosen ↔
        PrunesFile view options nManualPruneHeight s fileNumber := by
  have hcases : (findFiles view options nManualPruneHeight s = ([], s) ∧
        ∀ fileNumber, ¬ PrunesFile view options nManualPruneHeight s fileNumber) ∨
      ∃ nBuffer target, findFiles view options nManualPruneHeight s =
        pruneLoop (getPruneRange view (lastHeight view options nManualPruneHeight)) nBuffer target
          (range s.blockman.maxBlockfileNum) s.calculateCurrentUsage s ∧
        ∀ fileNumber < s.blockman.maxBlockfileNum,
          GivenUp (getPruneRange view (lastHeight view options nManualPruneHeight)) nBuffer target s
            (range fileNumber) fileNumber ↔
          PrunesFile view options nManualPruneHeight s fileNumber := by
    unfold findFiles
    split
    · next hasked =>
      split
      · next hmanual =>
        unfold findFilesToPruneManual
        split
        · next hlow => exact .inl ⟨rfl, fun _ h => absurd h.height (Int.not_le.mpr hlow)⟩
        next hheight =>
        refine .inr ⟨0, 0, ?_, fun fileNumber hlast => ⟨fun h => ?_, fun h => ?_⟩⟩
        · rw [pruneManualLoop_eq _ _ s.calculateCurrentUsage, lastHeight, if_pos hmanual]
        · exact ⟨hasked, Int.not_lt.mp hheight, hlast, h.1, fun hauto => by omega⟩
        · exact ⟨h.eligible, Nat.zero_le _⟩
      · next hmanual =>
        have hauto := Int.not_lt.mp hmanual
        have hlast : lastHeight view options nManualPruneHeight = lastPrune view options :=
          if_neg hmanual
        rw [hlast]
        unfold findFilesToPrune
        dsimp only
        split
        · next hstart =>
          refine .inl ⟨rfl, fun _ h => ?_⟩
          rcases hstart with hlow | hzero
          · exact absurd h.height (Int.not_le.mpr hlow)
          · exact pruneTarget_ne_zero view options hzero
        next hstart =>
        split
        · next hshort =>
          exact .inl ⟨rfl, fun _ h => absurd (h.target hauto).1 (Int.not_lt.mpr hshort)⟩
        next hlong =>
        split
        · next husage =>
          refine .inr ⟨_, _, rfl, fun fileNumber hfile => ⟨fun h => ?_, fun h => ?_⟩⟩
          · exact ⟨hasked, by omega, hfile, hlast.symm ▸ h.1, fun _ =>
              ⟨Int.not_le.mp hlong, husage, h.2⟩⟩
          · exact ⟨hlast ▸ h.eligible, (h.target hauto).2.2⟩
        · next husage => exact .inl ⟨rfl, fun _ h => husage (h.target hauto).2.1⟩
    · next hasked => exact .inl ⟨rfl, fun _ h => hasked h.asked⟩
  rcases hcases with ⟨hnone, hnot⟩ | ⟨nBuffer, target, hloop, hiff⟩
  · exact ⟨[], hnone, fun fileNumber => iff_of_false not_mem_nil (hnot fileNumber)⟩
  obtain ⟨chosen, hchosen, hresult⟩ := pruneLoop_spec _ nBuffer target nodup_range s
  refine ⟨chosen, hloop.trans hchosen, fun fileNumber => ?_⟩
  rw [hresult.mem_range]
  exact ⟨fun h => (hiff _ h.1).mp h.2, fun h => ⟨h.last, (hiff _ h.last).mpr h⟩⟩

/-! ## Stop points -/

/-- Only files of a list may have been removed, and coins written. -/
structure Unlinked (files : List Nat) (s p : BlockStorage) : Prop where
  blockman : p.blockman = s.blockman
  dirty : p.m_dirty_blockindex = s.m_dirty_blockindex
  diskIndex : p.diskIndex = s.diskIndex
  blockFiles : ∀ fileNumber, fileNumber ∉ files →
    p.blockFileExists fileNumber = s.blockFileExists fileNumber
  undoFiles : ∀ fileNumber, fileNumber ∉ files →
    p.undoFileExists fileNumber = s.undoFileExists fileNumber

theorem unlinked_unlinkPrunedFiles (h : p ∈ unlinkPrunedFiles files s) : Unlinked files s p := by
  induction files generalizing s with
  | nil =>
    obtain rfl := mem_singleton.mp h
    exact ⟨rfl, rfl, rfl, fun _ _ => rfl, fun _ _ => rfl⟩
  | cons fileNumber rest ih =>
    rcases mem_cons.mp h with rfl | h
    · exact ⟨rfl, rfl, rfl, fun _ _ => rfl, fun _ _ => rfl⟩
    rcases mem_cons.mp h with rfl | h
    · refine ⟨rfl, rfl, rfl, fun other hother => ?_, fun _ _ => rfl⟩
      exact update_of_ne (ne_of_not_mem_cons hother) _ _
    have hrest := ih h
    refine ⟨hrest.blockman, hrest.dirty, hrest.diskIndex, fun other hother => ?_,
      fun other hother => ?_⟩
    · rw [hrest.blockFiles other (not_mem_of_not_mem_cons hother)]
      exact update_of_ne (ne_of_not_mem_cons hother) _ _
    · rw [hrest.undoFiles other (not_mem_of_not_mem_cons hother)]
      exact update_of_ne (ne_of_not_mem_cons hother) _ _

theorem unlinked_flushCoins {last : BlockStorage}
    (hlast : Unlinked files s last) (h : p ∈ flushCoins inputs last) : Unlinked files s p := by
  unfold flushCoins at h
  split at h
  · cases h
  · obtain ⟨_, _, rfl⟩ := mem_map.mp h
    exact ⟨hlast.blockman, hlast.dirty, hlast.diskIndex, hlast.blockFiles, hlast.undoFiles⟩

/-- How far a call has come, when it gives up some files. -/
inductive Stop (s : BlockStorage) (chosen : List Nat) (indexWriteFails : Bool) : BlockStorage → Prop
  | start : Stop s chosen indexWriteFails s
  | pruned : Stop s chosen indexWriteFails (pruneAll chosen s)
  | failed (hfails : indexWriteFails = true) :
      Stop s chosen indexWriteFails { pruneAll chosen s with m_dirty_blockindex := [] }
  | written {p : BlockStorage} (hunlinked : Unlinked chosen (pruneAll chosen s).writeBlockIndexDB p)
      : Stop s chosen indexWriteFails p

theorem stop_of_mem_flush (hchosen : findFiles view options nManualPruneHeight s =
    (chosen, pruneAll chosen s))
    (h : p ∈ flushStateToDisk view options inputs nManualPruneHeight s) :
      Stop s chosen inputs.indexWriteFails p := by
  unfold flushStateToDisk at h
  rw [hchosen] at h
  rcases mem_cons.mp h with rfl | h
  · exact .start
  rcases mem_cons.mp h with rfl | h
  · exact .pruned
  split at h
  · split at h
    · cases h
    split at h
    · next hfails =>
      obtain rfl := mem_singleton.mp h
      exact .failed hfails
    rcases mem_append.mp h with h | h
    · exact .written (unlinked_unlinkPrunedFiles h)
    split at h
    · cases hlast : (unlinkPrunedFiles chosen (pruneAll chosen s).writeBlockIndexDB).getLast? with
      | none =>
        rw [hlast] at h
        cases h
      | some last =>
        rw [hlast] at h
        exact .written (unlinked_flushCoins (unlinked_unlinkPrunedFiles (mem_of_getLast? hlast)) h)
    · cases h
  · cases h

/-! ## The index on disk -/

/-- The files that an entry refers to are there. -/
def Present (s : BlockStorage) (entry : BlockFileEntry) : Prop :=
  (entry.haveData = true → s.blockFileExists entry.nFile = true) ∧
    (entry.haveUndo = true → s.undoFileExists entry.nFile = true)

/-- The files of the index in memory and of that on disk are there. -/
structure AllPresent (s : BlockStorage) : Prop where
  memory : ∀ hash entry, s.blockman.entry hash = some entry → s.Present entry
  disk : ∀ hash entry, s.diskIndex hash = some entry → s.Present entry

/-- The index on disk is behind that in memory only where this is to be written, and the files of
both are there. -/
structure InStep (s : BlockStorage) : Prop extends AllPresent s where
  synced : ∀ hash, hash ∉ s.m_dirty_blockindex → s.diskIndex hash = s.blockman.entry hash

/-- The entries of files that are not given up are there as before. -/
theorem entry_kept (h : (pruneAll files s).blockman.entry hash = some entry)
    (hhave : entry.haveData = true ∨ entry.haveUndo = true) :
    s.blockman.entry hash = some entry ∧ entry.nFile ∉ files := by
  rw [entry_pruneAll] at h
  obtain ⟨_, hold, hentry⟩ := Option.map_eq_some_iff.mp h
  split at hentry
  · subst hentry
    exact hhave.elim nofun nofun
  next hfile =>
  subst hentry
  exact ⟨hold, hfile⟩

theorem present_pruneAll_iff : (pruneAll files s).Present entry ↔ s.Present entry := by
  obtain ⟨-, hblock, hundo, -⟩ := disk_pruneAll files s
  unfold Present
  rw [hblock, hundo]

theorem AllPresent.present_pruneAll (h : AllPresent s)
    (hentry : (pruneAll files s).blockman.entry hash = some entry) : s.Present entry := by
  refine ⟨fun hdata => ?_, fun hundo => ?_⟩
  · exact (h.memory hash entry (entry_kept hentry (.inl hdata)).1).1 hdata
  · exact (h.memory hash entry (entry_kept hentry (.inr hundo)).1).2 hundo

/-- The batch brings the index on disk up to date. -/
theorem InStep.diskIndex_written (h : InStep s) (hash : Uint256) :
    (pruneAll files s).writeBlockIndexDB.diskIndex hash =
    (pruneAll files s).blockman.entry hash := by
  show (if hash ∈ (pruneAll files s).m_dirty_blockindex then _ else (pruneAll files s).diskIndex
    hash) = _
  split
  · rfl
  next hclean =>
  obtain ⟨hold, hsame⟩ := pruneAll_of_not_dirty hclean
  rw [(disk_pruneAll files s).1, h.synced hash hold, hsame]

/-- A file that is still referred to in memory is not removed. -/
theorem AllPresent.present_written (h : AllPresent s)
    (hp : Unlinked files (pruneAll files s).writeBlockIndexDB p)
    (hentry : (pruneAll files s).blockman.entry hash = some entry) : p.Present entry := by
  obtain ⟨_, hblock, hundo, _⟩ := disk_pruneAll files s
  have hpresent := h.present_pruneAll hentry
  refine ⟨fun hhave => ?_, fun hhave => ?_⟩
  · rw [hp.blockFiles _ (entry_kept hentry (Or.inl hhave)).2]
    exact (congrFun hblock entry.nFile).trans (hpresent.1 hhave)
  · rw [hp.undoFiles _ (entry_kept hentry (Or.inr hhave)).2]
    exact (congrFun hundo entry.nFile).trans (hpresent.2 hhave)

/-- At every stop point the files of both indexes are there. -/
theorem InStep.allPresent_stop {fails : Bool} (h : InStep s) (hstop : Stop s chosen fails p) :
    AllPresent p := by
  have hdisk := (disk_pruneAll chosen s).1
  cases hstop with
  | start => exact h.toAllPresent
  | pruned | failed hfails =>
    exact ⟨fun hash entry hentry => present_pruneAll_iff.mpr (h.present_pruneAll hentry),
      fun hash entry hentry => present_pruneAll_iff.mpr (h.disk hash entry (hdisk ▸ hentry))⟩
  | written hunlinked =>
    refine ⟨fun hash entry hentry => ?_, fun hash entry hentry => ?_⟩
    · rw [hunlinked.blockman] at hentry
      exact h.present_written hunlinked hentry
    · rw [hunlinked.diskIndex, h.diskIndex_written] at hentry
      exact h.present_written hunlinked hentry

/-- If the index is written, a call leaves the indexes in step. -/
theorem InStep.stop (h : InStep s) (hstop : Stop s chosen false p) : InStep p := by
  refine ⟨h.allPresent_stop hstop, fun hash hclean => ?_⟩
  cases hstop with
  | start => exact h.synced hash hclean
  | pruned =>
    obtain ⟨hold, hsame⟩ := pruneAll_of_not_dirty hclean
    rw [(disk_pruneAll chosen s).1, h.synced hash hold, hsame]
  | failed hfails => cases hfails
  | written hunlinked =>
    rw [hunlinked.diskIndex, hunlinked.blockman, h.diskIndex_written]
    rfl

/-! ## Shutdown -/

/-- A flush that does not prune, as it is made at shutdown. -/
def FlushesOnly (s p : BlockStorage) : Prop :=
  ∃ view options inputs, options.m_check_for_pruning = false ∧ p ∈ flushStateToDisk view options
    inputs 0 s

theorem AllPresent.flushesOnly (h : AllPresent s) (hflush : FlushesOnly s p) : AllPresent p := by
  obtain ⟨view, options, inputs, hoff, hp⟩ := hflush
  have hnone : findFiles view options 0 s = ([], pruneAll [] s) := by
    unfold findFiles
    rw [hoff, if_neg (by simp)]
    rfl
  cases stop_of_mem_flush hnone hp with
  | start | pruned | failed hfails => exact ⟨h.memory, h.disk⟩
  | written hunlinked =>
    have hpresent : ∀ entry, s.Present entry → p.Present entry := fun entry hentry => by
      unfold Present
      rw [hunlinked.blockFiles _ not_mem_nil, hunlinked.undoFiles _ not_mem_nil]
      exact hentry
    refine ⟨fun hash entry hentry => ?_, fun hash entry hentry => ?_⟩
    · rw [hunlinked.blockman] at hentry
      exact hpresent entry (h.memory hash entry hentry)
    · rw [hunlinked.diskIndex] at hentry
      change (if hash ∈ s.m_dirty_blockindex then _ else _) = _ at hentry
      split at hentry
      · exact hpresent entry (h.memory hash entry hentry)
      · exact hpresent entry (h.disk hash entry hentry)

theorem AllPresent.shutdown (h : AllPresent s) (hrun : Relation.ReflTransGen FlushesOnly s p) :
    AllPresent p := by
  induction hrun with
  | refl => exact h
  | tail _ hflush ih => exact ih.flushesOnly hflush

end BlockStorage

end BtcSharp
