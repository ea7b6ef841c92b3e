/-
# The mempool

`CTxMemPool` with the calls that change it: `Apply` of a change set, `removeForBlock`,
`removeRecursive`, `Expire`, `TrimToSize`, `PrioritiseTransaction` and
`UpdateTransactionsFromBlock`. `mapTx` is the list of its keys with a function to the
entries, and an iterator is a key. Sets are duplicate-free lists, `mapNextTx` is a list
of pairs, and no result depends on the order in which a set is gone through.

Memory usage, the randomized order for announcements, the sequence number, the set of
transactions that were not broadcast and the notifications are left out. The loops that
search the graph have a bound on their rounds; it is the number of entries, and shown to
suffice.
-/

import BtcSharp.Math.Reach
import BtcSharp.Mempool.Entry

namespace BtcSharp

open Math

/-- `CTxMemPool`. A map entry of `mapDeltas` that is not there is zero. The last two
fields keep what was recorded for entries that were removed. -/
structure CTxMemPool where
  txids : List Uint256 := []
  entry : Uint256 → CTxMemPoolEntry := fun _ => default
  mapNextTx : List (COutPoint × Uint256) := []
  mapDeltas : Uint256 → Int := fun _ => 0
  totalTxSize : Int := 0
  m_total_fee : Int := 0
  assertFailed : Bool := false
  saturated : Bool := false

/-- Why a transaction with its ancestors does not fit. -/
inductive LimitError
  | descendantSize (txid : Uint256) (limit : Int)
  | descendantCount (txid : Uint256) (limit : Int)
  | ancestorSize (limit : Int)
  | ancestorCount (limit : Int)
  | parentCount (limit : Int)
  deriving DecidableEq, Repr

/-- The text of the error. -/
def LimitError.original : LimitError → String
  | .descendantSize txid limit =>
    s!"exceeds descendant size limit for tx {txid.toHex} [limit: {limit}]"
  | .descendantCount txid limit => s!"too many descendants for tx {txid.toHex} [limit: {limit}]"
  | .ancestorSize limit => s!"exceeds ancestor size limit [limit: {limit}]"
  | .ancestorCount limit => s!"too many unconfirmed ancestors [limit: {limit}]"
  | .parentCount limit => s!"too many unconfirmed parents [limit: {limit}]"

namespace CTxMemPool

variable (env : MempoolEnv)

/-! ## Ancestors and descendants -/

/-- A check against limits. None stands for `NoLimits`. -/
def checkLimit (limits : Option MemPoolLimits) (fits : MemPoolLimits → Bool)
    (err : MemPoolLimits → LimitError) : Except LimitError Unit :=
  match limits with
  | none => .ok ()
  | some limits => if fits limits then .ok () else .error (err limits)

/-- A number of entries within a limit, which is cast to `uint64_t`. -/
def countFits (count limit : Int) : Bool := count ≤ limit % 2 ^ 64

/-- The parents of an ancestor are staged. -/
def stageParents (limits : Option MemPoolLimits) (entry_count : Nat) (ancestors : List Uint256) :
    List Uint256 → List Uint256 → Except LimitError (List Uint256)
  | [], staged_ancestors => .ok staged_ancestors
  | parent :: parents, staged_ancestors => do
    let staged_ancestors :=
      if parent ∈ ancestors then staged_ancestors else staged_ancestors.insert parent
    checkLimit limits
      (fun limits => countFits (staged_ancestors.length + ancestors.length + entry_count)
        limits.ancestor_count)
      fun limits => .ancestorCount limits.ancestor_count
    stageParents limits entry_count ancestors parents staged_ancestors

/-- The loop of `CalculateAncestorsAndCheckLimits`, with the order in which the sets are gone
through. -/
def ancestorsLoopBy (order : List Uint256 → List Uint256) (pool : CTxMemPool) (entry_size : Int)
    (entry_count : Nat) (limits : Option MemPoolLimits) :
    Nat → List Uint256 → List Uint256 → Int → Except LimitError (List Uint256)
  | 0, _, ancestors, _ => .ok ancestors
  | fuel + 1, staged_ancestors, ancestors, totalSizeWithAncestors =>
    match order staged_ancestors with
    | [] => .ok ancestors
    | stageit :: staged_ancestors => do
      let stage := pool.entry stageit
      let ancestors := ancestors.insert stageit
      let totalSizeWithAncestors := totalSizeWithAncestors + stage.getTxSize env
      checkLimit limits
        (fun limits => stage.withDescendants.size + entry_size ≤ limits.descendant_size_vbytes)
        fun limits => .descendantSize stageit limits.descendant_size_vbytes
      checkLimit limits
        (fun limits => countFits (stage.withDescendants.count + entry_count)
          limits.descendant_count)
        fun limits => .descendantCount stageit limits.descendant_count
      checkLimit limits (fun limits => totalSizeWithAncestors ≤ limits.ancestor_size_vbytes)
        fun limits => .ancestorSize limits.ancestor_size_vbytes
      let staged_ancestors ←
        stageParents limits entry_count ancestors (order stage.m_parents) staged_ancestors
      ancestorsLoopBy order pool entry_size entry_count limits fuel staged_ancestors ancestors
        totalSizeWithAncestors

section

variable (pool : CTxMemPool)

def calculateAncestorsAndCheckLimits (entry_size : Int) (entry_count : Nat)
    (staged_ancestors : List Uint256) (limits : Option MemPoolLimits) :
    Except LimitError (List Uint256) :=
  ancestorsLoopBy env id pool entry_size entry_count limits pool.txids.length staged_ancestors []
    entry_size

/-- The parents of new transactions are looked up in `mapTx`. -/
def searchParents (pool : CTxMemPool) (limits : Option MemPoolLimits) (entry_count : Nat) :
    List CTxIn → List Uint256 → Except LimitError (List Uint256)
  | [], staged_ancestors => .ok staged_ancestors
  | txin :: vin, staged_ancestors =>
    if txin.prevout.hash ∈ pool.txids then do
      let staged_ancestors := staged_ancestors.insert txin.prevout.hash
      checkLimit limits (fun limits => countFits (staged_ancestors.length + entry_count)
          limits.ancestor_count)
        fun limits => .parentCount limits.ancestor_count
      searchParents pool limits entry_count vin staged_ancestors
    else searchParents pool limits entry_count vin staged_ancestors

variable (entry : CTxMemPoolEntry)

/-- The parents of an entry, looked up or as the entry keeps them. -/
def stagedParents (limits : Option MemPoolLimits) (fSearchForParents : Bool) :
    Except LimitError (List Uint256) :=
  if fSearchForParents then searchParents pool limits 1 entry.tx.vin [] else .ok entry.m_parents

def checkPackageLimits (package : List CTransaction) (total_vsize : Int) : Bool :=
  let limits := env.limits
  countFits package.length limits.ancestor_count &&
    countFits package.length limits.descendant_count &&
    decide (total_vsize ≤ limits.ancestor_size_vbytes) &&
    decide (total_vsize ≤ limits.descendant_size_vbytes) &&
    match searchParents pool (some limits) package.length (package.flatMap (·.vin)) [] with
    | .error _ => false
    | .ok staged_ancestors => (calculateAncestorsAndCheckLimits env pool total_vsize package.length
        staged_ancestors (some limits)).isOk

def calculateMemPoolAncestors (limits : Option MemPoolLimits) (fSearchForParents : Bool) :
    Except LimitError (List Uint256) := do
  let staged_ancestors ← stagedParents pool entry limits fSearchForParents
  calculateAncestorsAndCheckLimits env pool (entry.getTxSize env) 1 staged_ancestors limits

/-- `AssumeCalculateMemPoolAncestors` without limits. -/
def assumeCalculateMemPoolAncestors (fSearchForParents : Bool) : List Uint256 :=
  match calculateMemPoolAncestors env pool entry none fSearchForParents with
  | .ok ancestors => ancestors
  | .error _ => []

def calculateDescendants (entryit : Uint256) (setDescendants : List Uint256) : List Uint256 :=
  search (fun it => (pool.entry it).m_children) pool.txids.length
    (if entryit ∈ setDescendants then [] else [entryit]) setDescendants

/-- The descendants of several entries, gathered in one set. -/
def calculateAllDescendants (entries : List Uint256) : List Uint256 :=
  entries.foldl (fun setDescendants it => pool.calculateDescendants it setDescendants) []

/-! ## Changing entries -/

/-- `mapTx.modify`. -/
def modify (it : Uint256) (change : CTxMemPoolEntry → CTxMemPoolEntry) : CTxMemPool :=
  { pool with entry := Function.update pool.entry it (change (pool.entry it)) }

/-- A loop that changes each entry of a set in the same way. -/
def modifyAll (its : List Uint256) (change : CTxMemPoolEntry → CTxMemPoolEntry) : CTxMemPool :=
  its.foldl (fun pool it => pool.modify it change) pool

def updateChild (entry child : Uint256) (add : Bool) : CTxMemPool :=
  pool.modify entry fun e => { e with
    m_children := if add then e.m_children.insert child else e.m_children.erase child }

def updateParent (entry parent : Uint256) (add : Bool) : CTxMemPool :=
  pool.modify entry fun e => { e with
    m_parents := if add then e.m_parents.insert parent else e.m_parents.erase parent }

def updateAncestorsOf (add : Bool) (pool : CTxMemPool) (it : Uint256)
    (setAncestors : List Uint256) : CTxMemPool :=
  let entry := pool.entry it
  let pool := entry.m_parents.foldl (fun pool parent => pool.updateChild parent it add) pool
  let updateCount : Int := if add then 1 else -1
  pool.modifyAll setAncestors fun e => e.updateDescendantState
    (updateCount * entry.getTxSize env) (updateCount * entry.m_modified_fee) updateCount

def updateEntryForAncestors (it : Uint256) (setAncestors : List Uint256) : CTxMemPool :=
  let sum := fun q => (setAncestors.map fun a => (pool.entry a).quantity env q).sum
  pool.modify it fun e =>
    e.updateAncestorState (sum .size) (sum .fees) setAncestors.length (sum .sigOps)

def updateChildrenForRemoval (it : Uint256) : CTxMemPool :=
  (pool.entry it).m_children.foldl (fun pool child => pool.updateParent child it false) pool

/-! ## Removal -/

/-- The first loop of `UpdateForRemoveFromMempool`, for one entry. -/
def updateDescendantsForRemoval (removeIt : Uint256) : CTxMemPool :=
  let entry := pool.entry removeIt
  pool.modifyAll ((pool.calculateDescendants removeIt []).erase removeIt) fun e =>
    e.updateAncestorState (-entry.getTxSize env) (-entry.m_modified_fee) (-1) (-entry.sigOpCost)

/-- The second loop of `UpdateForRemoveFromMempool`, for one entry. -/
def updateAncestorsForRemoval (removeIt : Uint256) : CTxMemPool :=
  updateAncestorsOf env false pool removeIt
    (assumeCalculateMemPoolAncestors env pool (pool.entry removeIt) false)

def updateForRemoveFromMempool (entriesToRemove : List Uint256) (updateDescendants : Bool) :
    CTxMemPool :=
  let pool := if updateDescendants then
      entriesToRemove.foldl (updateDescendantsForRemoval env) pool
    else pool
  let pool := entriesToRemove.foldl (updateAncestorsForRemoval env) pool
  entriesToRemove.foldl updateChildrenForRemoval pool

def removeUnchecked (it : Uint256) : CTxMemPool :=
  let entry := pool.entry it
  { pool with
    mapNextTx := pool.mapNextTx.filter fun pair => pair.1 ∉ entry.tx.vin.map (·.prevout)
    totalTxSize := pool.totalTxSize - entry.getTxSize env
    m_total_fee := pool.m_total_fee - entry.nFee
    txids := pool.txids.erase it
    assertFailed := pool.assertFailed || entry.withAncestors.assertFailed ||
      entry.withDescendants.assertFailed
    saturated := pool.saturated || entry.withAncestors.saturated ||
      entry.withDescendants.saturated || entry.saturated }

def removeStaged (stage : List Uint256) (updateDescendants : Bool) : CTxMemPool :=
  stage.foldl (removeUnchecked env) (updateForRemoveFromMempool env pool stage updateDescendants)

/-- The children of a transaction that is not in the mempool. -/
def childrenOf (origTx : CTransaction) : List Uint256 :=
  ((List.range origTx.vout.length).filterMap fun i =>
    pool.mapNextTx.lookup ⟨env.txid origTx, UInt32.ofNat i⟩).dedup

def removeRecursive (origTx : CTransaction) : CTxMemPool :=
  if env.txid origTx ∈ pool.txids then
    removeStaged env pool (pool.calculateAllDescendants [env.txid origTx]) false
  else
    let txToRemove := childrenOf env pool origTx
    let pool := { pool with
      assertFailed := pool.assertFailed || txToRemove.any fun nextit => nextit ∉ pool.txids }
    removeStaged env pool (pool.calculateAllDescendants txToRemove) false

def clearPrioritisation (hash : Uint256) : CTxMemPool :=
  { pool with mapDeltas := Function.update pool.mapDeltas hash 0 }

def removeConflicts (tx : CTransaction) : CTxMemPool :=
  tx.vin.foldl (fun pool txin =>
    match pool.mapNextTx.lookup txin.prevout with
    | none => pool
    | some conflict =>
      let txConflict := (pool.entry conflict).tx
      if txConflict ≠ tx then
        removeRecursive env (pool.clearPrioritisation (env.txid txConflict)) txConflict
      else pool) pool

/-- The body of the loop of `removeForBlock`. -/
def removeForBlockTx (tx : CTransaction) : CTxMemPool :=
  let pool := if env.txid tx ∈ pool.txids then removeStaged env pool [env.txid tx] true else pool
  (removeConflicts env pool tx).clearPrioritisation (env.txid tx)

def removeForBlock (vtx : List CTransaction) : CTxMemPool :=
  vtx.foldl (removeForBlockTx env) pool

def expire (time : Int) : CTxMemPool :=
  removeStaged env pool
    (pool.calculateAllDescendants (pool.txids.filter fun it => (pool.entry it).nTime < time)) false

/-- The first entry in the order by descendant score. -/
def firstByScore (pool : CTxMemPool) (before : CTxMemPoolEntry → CTxMemPoolEntry → Bool) :
    List Uint256 → Option Uint256
  | [] => none
  | it :: its =>
    match firstByScore pool before its with
    | none => some it
    | some other => if before (pool.entry other) (pool.entry it) then some other else some it

/-- `TrimToSize`, with the memory usage and the order by descendant score as inputs. A
round removes at least one entry, which bounds their number. -/
def trimToSize (usage : CTxMemPool → Nat) (before : CTxMemPoolEntry → CTxMemPoolEntry → Bool)
    (sizelimit : Nat) : Nat → CTxMemPool → CTxMemPool
  | 0, pool => pool
  | rounds + 1, pool =>
    if sizelimit < usage pool then
      match pool.firstByScore before pool.txids with
      | none => pool
      | some it => trimToSize usage before sizelimit rounds
          (removeStaged env pool (pool.calculateDescendants it []) false)
    else pool

/-! ## Prioritisation -/

def prioritiseTransaction (hash : Uint256) (nFeeDelta : Int) : CTxMemPool :=
  let delta := saturatingAdd (pool.mapDeltas hash) nFeeDelta
  let pool := { pool with
    mapDeltas := Function.update pool.mapDeltas hash delta
    saturated := pool.saturated || decide (delta ≠ pool.mapDeltas hash + nFeeDelta) }
  if hash ∈ pool.txids then
    let pool := pool.modify hash fun e => e.updateModifiedFee nFeeDelta
    let ancestors := assumeCalculateMemPoolAncestors env pool (pool.entry hash) false
    let pool := pool.modifyAll ancestors fun e => e.updateDescendantState 0 nFeeDelta 0
    let setDescendants := (pool.calculateDescendants hash []).erase hash
    pool.modifyAll setDescendants fun e => e.updateAncestorState 0 nFeeDelta 0 0
  else pool

/-! ## Additions -/

/-- What `StageAddition` is given. -/
structure Addition where
  tx : CTransaction
  fee : Int
  time : Int
  sigops_cost : Nat
  deriving DecidableEq, Repr

/-- `StageAddition`: the entry with the fee delta that the mempool has for it. -/
def stageAddition (addition : Addition) : CTxMemPoolEntry :=
  let entry := CTxMemPoolEntry.new env addition.tx addition.fee addition.time addition.sigops_cost
  let delta := pool.mapDeltas (env.txid addition.tx)
  if delta ≠ 0 then entry.updateModifiedFee delta else entry

/-- A new entry is spliced into `mapTx`. -/
def splice : CTxMemPool :=
  let it := env.txid entry.tx
  if it ∈ pool.txids then pool
  else { pool with
    txids := pool.txids ++ [it]
    entry := Function.update pool.entry it entry }

/-- `mapNextTx.insert`. -/
def insertNextTx (mapNextTx : List (COutPoint × Uint256)) (prevout : COutPoint) (tx : Uint256) :
    List (COutPoint × Uint256) :=
  if prevout ∈ mapNextTx.map Prod.fst then mapNextTx else mapNextTx ++ [(prevout, tx)]

def addNewTransaction (newit : Uint256) (setAncestors : List Uint256) : CTxMemPool :=
  let entry := pool.entry newit
  let vin := entry.tx.vin
  let pool := { pool with
    mapNextTx := vin.foldl (fun map txin => insertNextTx map txin.prevout newit) pool.mapNextTx }
  let setParentTransactions := (vin.map (·.prevout.hash)).dedup.filter (· ∈ pool.txids)
  let pool := setParentTransactions.foldl (fun pool pit => pool.updateParent newit pit true) pool
  let pool := updateAncestorsOf env true pool newit setAncestors
  let pool := updateEntryForAncestors env pool newit setAncestors
  { pool with
    totalTxSize := pool.totalTxSize + entry.getTxSize env
    m_total_fee := pool.m_total_fee + entry.nFee }

/-- An entry of a change set is added, with ancestors that are known or calculated when it
is spliced in. -/
def addEntry (known : Option (List Uint256)) : CTxMemPool :=
  let pool := splice env pool entry
  let ancestors := match known with
    | some ancestors => ancestors
    | none => assumeCalculateMemPoolAncestors env pool entry true
  addNewTransaction env pool (env.txid entry.tx) ancestors

/-- `Apply`, for a change set with entries staged in this mempool. The ancestors of the
first entry may have been calculated before the removals. -/
def apply (pool : CTxMemPool) (m_to_remove : List Uint256) (additions : List Addition)
    (cached : Bool) : CTxMemPool :=
  let removed := removeStaged env pool m_to_remove false
  match additions.map (stageAddition env pool) with
  | [] => removed
  | first :: rest =>
    let ancestors := assumeCalculateMemPoolAncestors env (if cached then pool else removed)
      first true
    rest.foldl (fun pool entry => addEntry env pool entry none)
      (addEntry env removed first (some ancestors))

/-! ## Reorganisations -/

/-- The loop of `UpdateForDescendants`. A key that is not in the cache has no entries. -/
def descendantsLoop (cachedDescendants : Uint256 → List Uint256) (stageEntries : List Uint256) :
    List Uint256 :=
  searchCached (fun it => (pool.entry it).m_children) cachedDescendants pool.txids.length
    stageEntries []

end

/-- What `UpdateTransactionsFromBlock` carries from one transaction to the next. -/
structure ReorgUpdate where
  pool : CTxMemPool
  cachedDescendants : Uint256 → List Uint256 := fun _ => []
  descendants_to_remove : List Uint256 := []

def updateForDescendants (state : ReorgUpdate) (updateIt : Uint256) (setExclude : List Uint256) :
    ReorgUpdate :=
  let pool := state.pool
  let entry := pool.entry updateIt
  let descendants := (pool.descendantsLoop state.cachedDescendants entry.m_children).filter
    (· ∉ setExclude)
  let modify := fun q => (descendants.map fun d => (pool.entry d).quantity env q).sum
  let updated := pool.modifyAll descendants fun e =>
    e.updateAncestorState (entry.getTxSize env) entry.m_modified_fee 1 entry.sigOpCost
  let exceeds := fun d =>
    !countFits (updated.entry d).withAncestors.count env.limits.ancestor_count ||
      decide (env.limits.ancestor_size_vbytes < (updated.entry d).withAncestors.size)
  { pool := updated.modify updateIt fun e =>
      e.updateDescendantState (modify .size) (modify .fees) (modify .count)
    cachedDescendants := Function.update state.cachedDescendants updateIt
      (descendants ∪ state.cachedDescendants updateIt)
    descendants_to_remove := descendants.filter exceeds ∪ state.descendants_to_remove }

/-- A child of a transaction that came back from a block is linked to it. -/
def linkChild (pool : CTxMemPool) (it childIter : Uint256) : CTxMemPool :=
  (pool.updateChild it childIter true).updateParent childIter it true

/-- The body of the loop of `UpdateTransactionsFromBlock`. -/
def updateFromBlockTx (setAlreadyIncluded : List Uint256) (state : ReorgUpdate) (hash : Uint256) :
    ReorgUpdate :=
  let pool := state.pool
  if hash ∉ pool.txids then state
  else
    let spenders := ((pool.mapNextTx.filter fun pair => pair.1.hash = hash).map Prod.snd).dedup
    let linked := (spenders.filter (· ∉ setAlreadyIncluded)).foldl
      (fun pool childIter => pool.linkChild hash childIter)
      { pool with
        assertFailed := pool.assertFailed || spenders.any fun it => it ∉ pool.txids }
    updateForDescendants env { state with pool := linked } hash setAlreadyIncluded

def updateTransactionsFromBlock (pool : CTxMemPool) (vHashesToUpdate : List Uint256) : CTxMemPool :=
  let state := vHashesToUpdate.reverse.foldl (updateFromBlockTx env vHashesToUpdate)
    { pool := pool }
  state.descendants_to_remove.foldl (fun pool txid =>
    if txid ∈ pool.txids then removeRecursive env pool (pool.entry txid).tx else pool) state.pool

end CTxMemPool

end BtcSharp
