/-
# Recovering from an interrupted flush

`CCoinsViewDB::BatchWrite` writes the coins of a new tip over those of an old one in
several batches. A crash between two of them leaves a database that holds at each
outpoint the coin of one or the other, and a record of both tips. `ReplayBlocks` then
rolls the old branch back and the new one forward in a cache, and flushes that cache
in batches again.

A write to an outpoint hides what was there before, so the two rolls lead to the coins
of the new tip from every mixture of the two coin sets. This is also why a crash of
the repair itself does no harm.
-/

import BtcSharp.Validation.Undoing

namespace BtcSharp

open Math CBlockIndex List

/-! ## `ReplayBlocks` -/

/-- The block index by hash, and the block and undo files. -/
structure BlockStore where
  lookup : Uint256 → Option CBlockIndex
  readBlock : CBlockIndex → Option CBlock
  readBlockUndo : CBlockIndex → Option CBlockUndo

/-- Why `ReplayBlocks` gave up. -/
inductive ReplayError
  | unknownState
  | unknownNewBlock
  | unknownOldBlock
  | assertion
  | readFailed
  | disconnectFailed
  | coins (err : CoinsError)
  deriving DecidableEq, Repr

/-- The loop of `LastCommonAncestor` over two blocks of one height. -/
def commonAncestor : CBlockIndex → CBlockIndex → CBlockIndex
  | a :: pa, b :: pb => if a :: pa = b :: pb then a :: pa else commonAncestor pa pb
  | _, _ => []

def lastCommonAncestor (pa pb : CBlockIndex) : CBlockIndex :=
  if pb.nHeight < pa.nHeight then commonAncestor (pa.getAncestor pb.nHeight) pb
  else if pa.nHeight < pb.nHeight then commonAncestor pa (pb.getAncestor pa.nHeight)
  else commonAncestor pa pb

/-- Spend the inputs of a transaction, whether they are there or not. -/
def spendAll : List CTxIn → CacheView → CacheView
  | [], inputs => inputs
  | txin :: rest, inputs => spendAll rest (inputs.spendCoin txin.prevout).2

/-- The loop of `RollforwardBlock`. Every addition may be an overwrite. -/
def rollforwardTxs (env : ChainEnv) (nHeight : Nat) :
    List CTransaction → CacheView → Except ReplayError CacheView
  | [], inputs => .ok inputs
  | tx :: rest, inputs =>
    let spent := if tx.isCoinBase then inputs else spendAll tx.vin inputs
    match addCoins env spent tx nHeight true with
    | .error err => .error (.coins err)
    | .ok inputs => rollforwardTxs env nHeight rest inputs

def rollforwardBlock (env : ChainEnv) (store : BlockStore) (pindex : CBlockIndex)
    (inputs : CacheView) : Except ReplayError CacheView :=
  match store.readBlock pindex with
  | none => .error .readFailed
  | some block => rollforwardTxs env pindex.nHeight block.vtx inputs

/-- One iteration of the rollback loop. -/
def rollbackBlock (env : ChainEnv) (store : BlockStore) (pindex : CBlockIndex)
    (cache : CacheView) : Except ReplayError CacheView :=
  match store.readBlock pindex, store.readBlockUndo pindex with
  | none, _ => .error .readFailed
  | some _, none => .error .disconnectFailed
  | some block, some blockUndo =>
    match disconnectBlock env block pindex blockUndo cache with
    | .error err => .error (.coins err)
    | .ok (.DISCONNECT_FAILED, _) => .error .disconnectFailed
    | .ok (_, none) => .error .disconnectFailed
    | .ok (_, some cache) => .ok cache

/-- Roll back along the old branch down to the fork. The genesis block is never
disconnected. -/
def rollback (env : ChainEnv) (store : BlockStore) (pindexFork : CBlockIndex) :
    CBlockIndex → CacheView → Except ReplayError CacheView
  | [], cache => .ok cache
  | hash :: pprev, cache =>
    if hash :: pprev = pindexFork then .ok cache
    else if 0 < CBlockIndex.nHeight (hash :: pprev) then
      match rollbackBlock env store (hash :: pprev) cache with
      | .error err => .error err
      | .ok cache => rollback env store pindexFork pprev cache
    else rollback env store pindexFork pprev cache

/-- Roll forward over the given heights of the new branch. -/
def rollforward (env : ChainEnv) (store : BlockStore) (pindexNew : CBlockIndex) :
    List Nat → CacheView → Except ReplayError CacheView
  | [], cache => .ok cache
  | nHeight :: rest, cache =>
    if (pindexNew.getAncestor nHeight).isEmpty then .error .assertion
    else
      match rollforwardBlock env store (pindexNew.getAncestor nHeight) cache with
      | .error err => .error err
      | .ok cache => rollforward env store pindexNew rest cache

/-- The old tip and the fork, given the recorded old tip. Empty chains stand for null
pointers: the old tip is null on the first flush. -/
def findFork (store : BlockStore) (pindexNew : CBlockIndex) (hashOld : Uint256) :
    Except ReplayError (CBlockIndex × CBlockIndex) :=
  if hashOld.isNull then .ok ([], [])
  else
    match store.lookup hashOld with
    | none => .error .unknownOldBlock
    | some pindexOld =>
      if (lastCommonAncestor pindexOld pindexNew).isEmpty then .error .assertion
      else .ok (pindexOld, lastCommonAncestor pindexOld pindexNew)

/-- `ReplayBlocks` up to the flush: the batches it writes. There are none when the
database is consistent. -/
def replayBlocks (env : ChainEnv) (store : BlockStore) (db : CCoinsViewDB) :
    Except ReplayError (List (List DbWrite)) :=
  match db.getHeadBlocks with
  | [] => .ok []
  | [hashNew, hashOld] =>
    match store.lookup hashNew with
    | none => .error .unknownNewBlock
    | some pindexNew =>
      match findFork store pindexNew hashOld with
      | .error err => .error err
      | .ok (pindexOld, pindexFork) =>
        match rollback env store pindexFork pindexOld ⟨{}, .db db⟩ with
        | .error err => .error err
        | .ok cache =>
          let nForkHeight := pindexFork.nHeight
          let heights := List.range' (nForkHeight + 1) (pindexNew.nHeight - nForkHeight)
          match rollforward env store pindexNew heights cache with
          | .error err => .error err
          | .ok cache =>
            let cache := cache.setBestBlock pindexNew.getBlockHash
            match db.batches cache.top true cache.top.hashBlock with
            | .error err => .error (.coins err)
            | .ok (batches, _) => .ok batches
  | _ => .error .unknownState

/-! ## Chains and their coins -/

/-- The coins of a chain of blocks: what `ConnectBlock` leads to when it connects them
one after another, none of them with an output that was there already. All blocks and
their undo data are in the store. -/
inductive ChainUtxo (env : ChainEnv) (store : BlockStore) : CBlockIndex → UtxoMap → Prop
  | genesis : ChainUtxo env store [env.params.hashGenesisBlock] fun _ => none
  | block {hash : Uint256} {pindex : CBlockIndex} {view view' : CacheView} {block : CBlock}
      {blockundo : CBlockUndo} (parent : ChainUtxo env store pindex view.view.utxo)
      (hwf : view.view.WellFormed) (hheight : pindex.length < 2 ^ 31)
      (hread : store.readBlock (hash :: pindex) = some block)
      (hundo : store.readBlockUndo (hash :: pindex) = some blockundo)
      (hbip30 : ∀ tx ∈ block.vtx, ∀ i < tx.vout.length,
        view.view.utxo (outPointAt (env.txid tx) i) = none)
      (hconnect : connectBlock env block (hash :: pindex) view = .ok (some blockundo, view')) :
      ChainUtxo env store (hash :: pindex) view'.view.utxo

variable {env : ChainEnv} {before after : UtxoMap} {store : BlockStore} {pindex : CBlockIndex}

theorem AppliesAll.redo_eq {nHeight : Nat} {txs : List CTransaction}
    {undos : List CTxUndo} {fees : Int} (h : AppliesAll env nHeight txs undos fees before after) :
    after = applyWrites before (txs.flatMap fun tx => tx.redoLog env nHeight) := by
  induction h with
  | nil map => rfl
  | cons _ _ _ ih => rw [flatMap_cons, applyWrites_append, ← ih]

/-- What rolling a block back and forward needs to know of it. -/
structure Rollable (env : ChainEnv) (store : BlockStore) (pindex : CBlockIndex)
    (before after : UtxoMap) (block : CBlock) (blockundo : CBlockUndo) : Prop where
  read : store.readBlock pindex = some block
  readUndo : store.readBlockUndo pindex = some blockundo
  checked : ∀ tx ∈ block.vtx, tx.Checked
  redo_eq : after = applyWrites before (block.redoLog env pindex.nHeight)
  undo_eq : applyWrites after (undoLogs env pindex.nHeight (pairUndo block blockundo).reverse) =
    before
  disconnect : ∀ cache : CacheView, cache.view.WellFormed → ∃ (clean : Bool) (last : CacheView),
    disconnectBlock env block pindex blockundo cache =
      .ok (if clean then .DISCONNECT_OK else .DISCONNECT_UNCLEAN, some last) ∧
    CacheView.Steps cache last (applyWrites cache.view.utxo
      (undoLogs env pindex.nHeight (pairUndo block blockundo).reverse))
  mined : after.Mined

namespace ChainUtxo

variable {map : UtxoMap} {hash : Uint256}

theorem rollable_of_connect {view view' : CacheView}
    {block : CBlock} {blockundo : CBlockUndo} (hmined : UtxoMap.Mined view.view.utxo)
    (hwf : view.view.WellFormed) (hheight : pindex.length < 2 ^ 31)
    (hread : store.readBlock (hash :: pindex) = some block)
    (hundo : store.readBlockUndo (hash :: pindex) = some blockundo)
    (hbip30 : ∀ tx ∈ block.vtx, ∀ i < tx.vout.length,
      view.view.utxo (outPointAt (env.txid tx) i) = none)
    (hconnect : connectBlock env block (hash :: pindex) view = .ok (some blockundo, view')) :
    Rollable env store (hash :: pindex) view.view.utxo view'.view.utxo block blockundo := by
  have hfresh := fresh_of_bip30 (nHeight (hash :: pindex)) hbip30
  obtain ⟨hblock, hpos, -, _, _, _, _, happlies, hsteps, -⟩ :=
    connectBlock_spec hwf (Or.inr fun tx htx entry hentry =>
      CacheView.shows_of_utxo_eq_none (hfresh tx htx entry hentry)) hconnect
  have hutxo := hsteps.utxo_eq
  refine ⟨hread, hundo, hblock.txs, ?_, ?_, ?_, ?_⟩
  · rw [hutxo, happlies.spends.redo_eq, CBlock.redoLog, happlies.vtx, flatMap_cons,
      applyWrites_append]
  · rw [hutxo]
    exact happlies.undo_redo hfresh
  · intro cache hcache
    obtain ⟨clean, _, hdisconnect, hlast, -⟩ :=
      happlies.disconnect hfresh hmined hpos hheight (.refl hcache)
    exact ⟨clean, _, hdisconnect, CacheView.setBestBlock_steps hlast _⟩
  · rw [hutxo, happlies.spends.redo_eq]
    apply applyWrites_forall (hmined.redo happlies.checked hpos hheight)
    intro outpoint coin hmem
    obtain ⟨tx, htx, hentry⟩ := mem_flatMap.mp hmem
    exact (hblock.txs tx (by rw [happlies.vtx]; exact mem_cons_of_mem _ htx)).mined_creates
      hpos hheight (CTransaction.mem_creates_of_redoLog hentry)

theorem mined (h : ChainUtxo env store pindex map) : map.Mined := by
  induction h with
  | genesis => exact nofun
  | block _ hwf hheight hread hundo hbip30 hconnect ih =>
    exact (rollable_of_connect ih hwf hheight hread hundo hbip30 hconnect).mined

theorem ne_nil (h : ChainUtxo env store pindex map) : pindex ≠ [] := by
  cases h <;> simp

/-- The last block of a chain, with the coins before it. -/
theorem rollable (h : ChainUtxo env store (hash :: pindex) map) (hpindex : pindex ≠ []) :
    ∃ before block blockundo, ChainUtxo env store pindex before ∧
      Rollable env store (hash :: pindex) before map block blockundo := by
  cases h with
  | genesis => exact absurd rfl hpindex
  | block parent hwf hheight hread hundo hbip30 hconnect =>
    exact ⟨_, _, _, parent, rollable_of_connect parent.mined hwf hheight hread hundo
      hbip30 hconnect⟩

/-- A chain has one coin set. -/
theorem unique {other : UtxoMap} (h : ChainUtxo env store pindex map)
    (hother : ChainUtxo env store pindex other) : map = other := by
  induction pindex generalizing map other with
  | nil => exact absurd rfl h.ne_nil
  | cons hash pindex ih =>
    by_cases hpindex : pindex = []
    · subst hpindex
      cases h with
      | genesis =>
        cases hother with
        | genesis => rfl
        | block parent => exact absurd rfl parent.ne_nil
      | block parent => exact absurd rfl parent.ne_nil
    · obtain ⟨_, block, _, hparent, hroll⟩ := h.rollable hpindex
      obtain ⟨_, block', _, hparent', hroll'⟩ := hother.rollable hpindex
      obtain rfl : block = block' := by
        have hsome := hroll.read.symm.trans hroll'.read
        exact Option.some.inj hsome
      rw [hroll.redo_eq, hroll'.redo_eq, ih hparent hparent']

/-- Every chain starts at the genesis block. -/
theorem getLast?_eq (h : ChainUtxo env store pindex map) :
    pindex.getLast? = some env.params.hashGenesisBlock := by
  induction h with
  | genesis => rfl
  | block parent _ _ _ _ _ _ ih =>
    rw [getLast?_cons_of_ne_nil parent.ne_nil]
    exact ih

end ChainUtxo

/-! ## The fork -/

theorem commonAncestor_suffix {pa pb : CBlockIndex} (hlength : pa.length = pb.length)
    (hlast : pa.getLast? = pb.getLast?) (hne : pa ≠ []) :
    commonAncestor pa pb <:+ pa ∧ commonAncestor pa pb <:+ pb ∧ commonAncestor pa pb ≠ [] := by
  induction pa generalizing pb with
  | nil => exact absurd rfl hne
  | cons a pa ih =>
    cases pb with
    | nil => cases hlength
    | cons b pb =>
      rw [commonAncestor]
      split
      · next heq =>
        exact ⟨suffix_rfl, heq ▸ suffix_rfl, cons_ne_nil a pa⟩
      next hdiffer =>
      have hlength' : pa.length = pb.length := by simpa using hlength
      have hne' : pa ≠ [] := by
        rintro rfl
        obtain rfl : pb = [] := length_eq_zero_iff.mp hlength'.symm
        apply hdiffer
        simpa using hlast
      have hne'' : pb ≠ [] := by
        rintro rfl
        exact hne' (length_eq_zero_iff.mp hlength')
      rw [getLast?_cons_of_ne_nil hne', getLast?_cons_of_ne_nil hne''] at hlast
      obtain ⟨hleft, hright, hnonempty⟩ := ih hlength' hlast hne'
      exact ⟨hleft.trans (suffix_cons a pa), hright.trans (suffix_cons b pb), hnonempty⟩

/-- The fork of two chains is an ancestor of both. -/
theorem lastCommonAncestor_suffix {pa pb : CBlockIndex} (hlast : pa.getLast? = pb.getLast?)
    (hpa : pa ≠ []) (hpb : pb ≠ []) :
    lastCommonAncestor pa pb <:+ pa ∧ lastCommonAncestor pa pb <:+ pb ∧
    lastCommonAncestor pa pb ≠ [] := by
  have hpaPos := length_pos_iff.mpr hpa
  have hpbPos := length_pos_iff.mpr hpb
  unfold lastCommonAncestor nHeight
  split
  · next hlower =>
    obtain ⟨hsuffix, hlength, hsame⟩ :=
      @getAncestor_spec pa (pb.length - 1) (by omega)
    obtain ⟨hleft, hright, hne⟩ := @commonAncestor_suffix (pa.getAncestor (pb.length - 1)) pb
      (by omega) (hsame.trans hlast) (length_pos_iff.mp (by omega))
    exact ⟨hleft.trans hsuffix, hright, hne⟩
  split
  · next hlower =>
    obtain ⟨hsuffix, hlength, hsame⟩ :=
      @getAncestor_spec pb (pa.length - 1) (by omega)
    obtain ⟨hleft, hright, hne⟩ := @commonAncestor_suffix pa (pb.getAncestor (pa.length - 1))
      (by omega) (hlast.trans hsame.symm) hpa
    exact ⟨hleft, hright.trans hsuffix, hne⟩
  · exact commonAncestor_suffix (by omega) hlast hpa

/-! ## Rolling back and forward -/

variable {start : CacheView}

theorem spendAll_steps {vin : List CTxIn} : ∀ {view : CacheView} {map : UtxoMap},
      CacheView.Steps start view map →
      CacheView.Steps start (spendAll vin view)
        (applyWrites map (unbindLog (vin.map (·.prevout)))) := by
  induction vin with
  | nil => exact fun h => h
  | cons txin rest ih => exact fun h => ih (CacheView.spendCoin_steps h txin.prevout).2

/-- Rolling transactions forward always succeeds and applies their logs. -/
theorem rollforwardTxs_steps {env : ChainEnv} {nHeight : Nat} {txs : List CTransaction}
    (htxs : ∀ tx ∈ txs, tx.Checked) :
    ∀ {view : CacheView} {map : UtxoMap}, CacheView.Steps start view map →
      ∃ view', rollforwardTxs env nHeight txs view = .ok view' ∧
        CacheView.Steps start view'
          (applyWrites map (txs.flatMap fun tx => tx.redoLog env nHeight)) := by
  induction txs with
  | nil => exact fun {view _} h => ⟨view, rfl, h⟩
  | cons tx rest ih =>
    intro view map h
    rw [forall_mem_cons] at htxs
    have hspent : CacheView.Steps start (if tx.isCoinBase then view else spendAll tx.vin view)
        (applyWrites map (unbindLog tx.spends)) := by
      rw [CTransaction.spends]
      split
      · exact h
      · exact spendAll_steps h
    obtain ⟨_, hadd, hmid⟩ := @addCoinsFrom_steps (env.txid tx) nHeight tx.vout tx.isCoinBase _
      true (Or.inl rfl) 0 _ _ hspent htxs.1.values
    rw [← applyWrites_append] at hmid
    obtain ⟨view', hrest, hrestSteps⟩ := ih htxs.2 hmid
    rw [← applyWrites_append] at hrestSteps
    refine ⟨view', ?_, hrestSteps⟩
    simp [rollforwardTxs, addCoins, hadd, hrest]

variable {block : CBlock} {blockundo : CBlockUndo} {view : CacheView} {pindexFork : CBlockIndex}

section

variable (h : Rollable env store pindex before after block blockundo) (hwf : view.view.WellFormed)

include h hwf

theorem Rollable.rollforwardBlock_steps :
    ∃ view', rollforwardBlock env store pindex view = .ok view' ∧ CacheView.Steps view view'
        (applyWrites view.view.utxo (block.redoLog env pindex.nHeight)) := by
  obtain ⟨view', hroll, hsteps⟩ :=
    @rollforwardTxs_steps _ env pindex.nHeight block.vtx h.checked view _ (.refl hwf)
  exact ⟨view', by simp only [rollforwardBlock, h.read, hroll], hsteps⟩

/-- Rolling a block back never fails, whether its coins are there or not. -/
theorem Rollable.rollbackBlock_steps :
    ∃ view', rollbackBlock env store pindex view = .ok view' ∧
      CacheView.Steps view view' (applyWrites view.view.utxo
        (undoLogs env pindex.nHeight (pairUndo block blockundo).reverse)) := by
  obtain ⟨clean, last, hdisconnect, hsteps⟩ := h.disconnect view hwf
  refine ⟨last, ?_, hsteps⟩
  simp only [rollbackBlock, h.read, h.readUndo, hdisconnect]
  cases clean <;> rfl

end

/-- A log that a roll applies to every view, and where it leads. -/
structure Rolls (roll : CacheView → Except ReplayError CacheView) (before after : UtxoMap)
    (log : List (COutPoint × Option Coin)) : Prop where
  leads : applyWrites before log = after
  steps : ∀ view : CacheView, view.view.WellFormed → ∃ view', roll view = .ok view' ∧
    CacheView.Steps view view' (applyWrites view.view.utxo log)

theorem Rolls.nil (map : UtxoMap) : Rolls (.ok) map map [] :=
  ⟨rfl, fun view hwf => ⟨view, rfl, CacheView.Steps.refl hwf⟩⟩

/-- One roll after another. -/
theorem Rolls.trans {first second : CacheView → Except ReplayError CacheView}
    {between : UtxoMap} {log log' : List (COutPoint × Option Coin)}
    (hfirst : Rolls first before between log) (hsecond : Rolls second between after log') :
    Rolls (fun view => first view >>= second) before after (log ++ log') := by
  refine ⟨?_, ?_⟩
  · rw [applyWrites_append, hfirst.leads, hsecond.leads]
  intro view hwf
  obtain ⟨mid, hmid, hmidSteps⟩ := hfirst.steps view hwf
  obtain ⟨view', hview', hsteps⟩ := hsecond.steps mid hmidSteps.wellFormed
  rw [hmidSteps.utxo_eq, ← applyWrites_append] at hsteps
  refine ⟨view', ?_, hmidSteps.trans hsteps⟩
  simp only [hmid]
  exact hview'

theorem rollback_rolls (hne : pindexFork ≠ []) {pindexOld : CBlockIndex} {old : UtxoMap}
    (hchain : ChainUtxo env store pindexOld old) (hsuffix : pindexFork <:+ pindexOld) :
    ∃ fork log, ChainUtxo env store pindexFork fork ∧
      Rolls (rollback env store pindexFork pindexOld) old fork log := by
  induction pindexOld generalizing old with
  | nil => exact absurd (suffix_nil.mp hsuffix) hne
  | cons hash pprev ih =>
    by_cases heq : hash :: pprev = pindexFork
    · have hstop : rollback env store pindexFork (hash :: pprev) = fun view => .ok view := by
        funext view
        rw [rollback, if_pos heq]
      rw [hstop]
      exact ⟨old, [], heq ▸ hchain, Rolls.nil old⟩
    have hlater : pindexFork <:+ pprev := by
      rcases suffix_cons_iff.mp hsuffix with hsame | hlater
      · exact absurd hsame.symm heq
      · exact hlater
    have hpprev := hlater.ne_nil hne
    obtain ⟨_, _, _, hparent, hroll⟩ := hchain.rollable hpprev
    obtain ⟨fork, log, hfork, hrest⟩ := ih hparent hlater
    have hstep : rollback env store pindexFork (hash :: pprev) = fun view =>
        rollbackBlock env store (hash :: pprev) view >>= rollback env store pindexFork pprev := by
      funext view
      have hpos : 0 < nHeight (hash :: pprev) := length_pos_iff.mpr hpprev
      rw [rollback, if_neg heq, if_pos hpos]
      cases rollbackBlock env store (hash :: pprev) view <;> rfl
    rw [hstep]
    exact ⟨fork, _, hfork,
      (Rolls.mk hroll.undo_eq fun view => hroll.rollbackBlock_steps).trans hrest⟩

theorem rollforward_append (env : ChainEnv) (store : BlockStore) (pindexNew : CBlockIndex)
    (first second : List Nat) :
    rollforward env store pindexNew (first ++ second) = fun view =>
      rollforward env store pindexNew first view >>= rollforward env store pindexNew second := by
  funext view
  induction first generalizing view with
  | nil => rfl
  | cons nHeight rest ih =>
    rw [cons_append, rollforward, rollforward]
    split
    · rfl
    cases rollforwardBlock env store (pindexNew.getAncestor nHeight) view with
    | error err => rfl
    | ok mid => exact ih mid

theorem rollforward_congr (env : ChainEnv) (store : BlockStore) {other : CBlockIndex}
    {heights : List Nat}
    (h : ∀ height ∈ heights, pindex.getAncestor height = other.getAncestor height) :
    rollforward env store pindex heights = rollforward env store other heights := by
  funext view
  induction heights generalizing view with
  | nil => rfl
  | cons nHeight rest ih =>
    rw [rollforward, rollforward, h nHeight mem_cons_self]
    split
    · rfl
    cases rollforwardBlock env store (other.getAncestor nHeight) view with
    | error err => rfl
    | ok mid => exact ih (fun height hheight => h height (mem_cons_of_mem _ hheight)) mid

theorem rollforward_rolls {fork : UtxoMap} (hfork : ChainUtxo env store pindexFork fork)
    {pindexNew : CBlockIndex} {new : UtxoMap} (hchain : ChainUtxo env store pindexNew new)
    (hsuffix : pindexFork <:+ pindexNew) :
    ∃ log, Rolls (rollforward env store pindexNew
      (range' (pindexFork.nHeight + 1) (pindexNew.nHeight - pindexFork.nHeight)))
      fork new log := by
  induction pindexNew generalizing new with
  | nil => exact absurd rfl hchain.ne_nil
  | cons hash pprev ih =>
    rcases suffix_cons_iff.mp hsuffix with rfl | hlater
    · obtain rfl := hfork.unique hchain
      rw [Nat.sub_self]
      exact ⟨[], Rolls.nil fork⟩
    have hpprev := hlater.ne_nil hfork.ne_nil
    have hforkLength := length_pos_iff.mpr hfork.ne_nil
    have hle := hlater.length_le
    obtain ⟨_, block, _, hparent, hroll⟩ := hchain.rollable hpprev
    obtain ⟨log, hrest⟩ := ih hparent hlater
    have hheights : range' (pindexFork.nHeight + 1)
        (nHeight (hash :: pprev) - pindexFork.nHeight) =
        range' (pindexFork.nHeight + 1) (nHeight pprev - pindexFork.nHeight) ++
          [pprev.length] := by
      have hsplit : nHeight (hash :: pprev) - pindexFork.nHeight =
          nHeight pprev - pindexFork.nHeight + 1 := by
        simp only [nHeight, length_cons]
        omega
      rw [hsplit, range'_concat]
      congr 2
      simp only [nHeight]
      omega
    have hbelow : rollforward env store (hash :: pprev)
        (range' (pindexFork.nHeight + 1) (nHeight pprev - pindexFork.nHeight)) =
        rollforward env store pprev
          (range' (pindexFork.nHeight + 1) (nHeight pprev - pindexFork.nHeight)) := by
      apply rollforward_congr
      intro height hheight
      have hbound : height < pprev.length := by
        have hmem := mem_range'_1.mp hheight
        simp only [nHeight] at hmem
        omega
      rw [getAncestor, getAncestor, if_pos hbound,
        if_pos (by rw [length_cons]; omega), length_cons]
      have hdrop : pprev.length + 1 - 1 - height = (pprev.length - 1 - height) + 1 := by omega
      rw [hdrop, drop_succ_cons]
    have hself : getAncestor (hash :: pprev) pprev.length = hash :: pprev := by
      simp [getAncestor]
    have hlast : rollforward env store (hash :: pprev) [pprev.length] =
        rollforwardBlock env store (hash :: pprev) := by
      funext view
      rw [rollforward, hself, if_neg (by simp)]
      cases rollforwardBlock env store (hash :: pprev) view <;> rfl
    rw [hheights, rollforward_append, hbelow, hlast]
    exact ⟨_, hrest.trans (Rolls.mk hroll.redo_eq.symm fun view => hroll.rollforwardBlock_steps)⟩

end BtcSharp
