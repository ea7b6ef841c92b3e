/-
# Failure flags of the block tree

The block index with the failure bits of its entries, and the calls that set and clear
them: `AcceptBlockHeader`, `InvalidBlockFound`, `InvalidateBlock` and
`ResetBlockFailureFlags`. The chain work of the entries, the best header, the candidate
set and the record of changed entries take no part in this and are left out.

`InvalidateBlock` gives up the lock between two disconnected blocks and may be stopped
there, or by a block that cannot be disconnected. Which of these happens is an input.
-/

import BtcSharp.Validation.Block

namespace BtcSharp

/-! ## The block index -/

def BLOCK_VALID_TREE : Nat := 2
def BLOCK_VALID_TRANSACTIONS : Nat := 3
def BLOCK_VALID_SCRIPTS : Nat := 5

/-- The part of `nStatus` read here: the validity level and the two failure bits. -/
structure BlockStatus where
  validity : Nat := 0
  failedValid : Bool := false
  failedChild : Bool := false
  deriving DecidableEq, Repr

namespace BlockStatus

variable (status : BlockStatus)

/-- A bit of `BLOCK_FAILED_MASK` is set. -/
def failed : Bool := status.failedValid || status.failedChild

def isValid (nUpTo : Nat) : Bool :=
  if status.failed then false else nUpTo ≤ status.validity

def raiseValidity (nUpTo : Nat) : BlockStatus :=
  if status.failed then status
  else if status.validity < nUpTo then { status with validity := nUpTo } else status

def setFailedValid : BlockStatus := { status with failedValid := true }

def setFailedChild : BlockStatus := { status with failedChild := true }

/-- Clear the bits of `BLOCK_FAILED_MASK`. -/
def clearFailed : BlockStatus :=
  { status with failedValid := false, failedChild := false }

end BlockStatus

/-- The block index: its entries with their status, the blocks that were found invalid
themselves, and the tip of the active chain. -/
structure BlockTree where
  index : List CBlockIndex
  status : CBlockIndex → BlockStatus
  failedBlocks : List CBlockIndex
  tip : CBlockIndex

/-- `GetAncestor(pindex->nHeight) == pindex`: the block is `pindex` or descends from it. -/
def CBlockIndex.descends (block pindex : CBlockIndex) : Bool :=
  block.getAncestor pindex.nHeight == pindex

namespace BlockTree

section

variable (tree : BlockTree)

section

variable (pindex : CBlockIndex)

/-- Change the status of one entry. -/
def modify (change : BlockStatus → BlockStatus) : BlockTree :=
  { tree with status := Function.update tree.status pindex (change (tree.status pindex)) }

/-- `m_chain.Contains`. -/
def chainContains : Bool := tree.tip.descends pindex

def setBlockFailureFlags (invalid_block : CBlockIndex) : BlockTree :=
  { tree with status := fun block =>
      if block ∈ tree.index ∧ block.descends invalid_block ∧ !(tree.status block).failed then
        (tree.status block).setFailedChild
      else tree.status block }

/-- `InvalidChainFound`, as far as it sets flags. -/
def invalidChainFound (pindexNew : CBlockIndex) : BlockTree :=
  tree.setBlockFailureFlags pindexNew

/-- Mark a block as invalid itself and its descendants as children of a failed block. -/
def markFailed : BlockTree :=
  let marked := tree.modify pindex .setFailedValid
  invalidChainFound { marked with failedBlocks := marked.failedBlocks.insert pindex } pindex

/-- `InvalidBlockFound`, for a result that is `BLOCK_MUTATED` or not. -/
def invalidBlockFound (mutated : Bool) : BlockTree :=
  if mutated then tree else tree.markFailed pindex

/-- What one iteration of the loop of `InvalidateBlock` meets. -/
structure LoopEvent where
  interrupt : Bool
  disconnected : Bool
  deriving DecidableEq, Repr

/-- The loop of `InvalidateBlock` with the tip as its own argument, from iteration `n` on.
The flag is false when `DisconnectTip` failed. The last component is `to_mark_failed`. -/
def invalidateLoop (events : Nat → LoopEvent) (pindex : CBlockIndex) :
    CBlockIndex → Nat → BlockTree → CBlockIndex → Bool × BlockTree × CBlockIndex
  | [], _, tree, to_mark_failed => (true, tree, to_mark_failed)
  | hash :: pprev, n, tree, to_mark_failed =>
    if (events n).interrupt then (true, tree, to_mark_failed)
    else if !tree.chainContains pindex then (true, tree, to_mark_failed)
    else if !(events n).disconnected then (false, tree, to_mark_failed)
    else
      let disconnected := { tree with tip := pprev }
      let marked := disconnected.modify (hash :: pprev) .setFailedValid
      let corrected :=
        if pprev = to_mark_failed ∧ (marked.status to_mark_failed).failedValid then
          marked.modify to_mark_failed fun status =>
            { status with failedValid := !status.failedValid, failedChild := true }
        else marked
      invalidateLoop events pindex pprev (n + 1) corrected (hash :: pprev)

def invalidateBlock (events : Nat → LoopEvent) : Bool × BlockTree :=
  if pindex.nHeight = 0 then (false, tree)
  else
    match invalidateLoop events pindex tree.tip 0 tree pindex with
    | (false, tree, _) => (false, tree)
    | (true, tree, to_mark_failed) =>
      if tree.chainContains to_mark_failed then (false, tree)
      else (true, tree.markFailed to_mark_failed)

/-- The walk of `ResetBlockFailureFlags` over a block and its ancestors. -/
def resetAncestors : CBlockIndex → BlockTree → BlockTree
  | [], tree => tree
  | hash :: pprev, tree =>
    if (tree.status (hash :: pprev)).failed then
      let cleared := tree.modify (hash :: pprev) .clearFailed
      resetAncestors pprev
        { cleared with failedBlocks := cleared.failedBlocks.erase (hash :: pprev) }
    else resetAncestors pprev tree

def resetBlockFailureFlags : BlockTree :=
  let resets := fun block => decide (block ∈ tree.index) &&
    !(tree.status block).isValid BLOCK_VALID_TRANSACTIONS && block.descends pindex
  resetAncestors pindex
    { tree with
      status := fun block =>
        if resets block then (tree.status block).clearFailed else tree.status block
      failedBlocks := tree.failedBlocks.filter fun block => !resets block }

end

/-- A header, with the results of the checks that do not look at the flags. -/
structure HeaderInput where
  hash : Uint256
  hashPrevBlock : Uint256
  checkBlockHeader : Bool
  contextualCheckBlockHeader : Bool
  min_pow_checked : Bool
  deriving DecidableEq, Repr

/-- `m_block_index.find`. -/
def find (tree : BlockTree) (hash : Uint256) : Option CBlockIndex :=
  tree.index.find? fun block => block.getBlockHash == hash

def addToBlockIndex (hash hashPrevBlock : Uint256) : BlockTree :=
  match tree.find hash with
  | some _ => tree
  | none =>
    let pindexNew : CBlockIndex := hash :: (tree.find hashPrevBlock).getD []
    { tree with
      index := pindexNew :: tree.index
      status := Function.update tree.status pindexNew
        (BlockStatus.raiseValidity {} BLOCK_VALID_TREE) }

/-- The walk of `AcceptBlockHeader` from the previous block down to a failed one. -/
def markPath (failedit : CBlockIndex) : CBlockIndex → BlockTree → BlockTree
  | [], tree => tree
  | hash :: pprev, tree =>
    if hash :: pprev = failedit then tree
    else markPath failedit pprev (tree.modify (hash :: pprev) .setFailedChild)

/-- The last part of `AcceptBlockHeader`. -/
def finishHeader (header : HeaderInput) : Bool × BlockTree :=
  if !header.min_pow_checked then (false, tree)
  else (true, tree.addToBlockIndex header.hash header.hashPrevBlock)

/-- `AcceptBlockHeader`. None stands for its assertion. -/
def acceptBlockHeader (hashGenesisBlock : Uint256) (tree : BlockTree) (header : HeaderInput) :
    Option (Bool × BlockTree) :=
  if header.hash = hashGenesisBlock then some (tree.finishHeader header)
  else
    match tree.find header.hash with
    | some pindex => some (!(tree.status pindex).failed, tree)
    | none =>
      if !header.checkBlockHeader then some (false, tree)
      else
        match tree.find header.hashPrevBlock with
        | none => some (false, tree)
        | some pindexPrev =>
          if (tree.status pindexPrev).failed then some (false, tree)
          else if !header.contextualCheckBlockHeader then some (false, tree)
          else if (tree.status pindexPrev).isValid BLOCK_VALID_SCRIPTS then
            some (tree.finishHeader header)
          else
            match tree.failedBlocks.find? fun failedit => pindexPrev.descends failedit with
            | none => some (tree.finishHeader header)
            | some failedit =>
              if (tree.status failedit).failedValid then
                some (false, markPath failedit pindexPrev tree)
              else none

/-! ## Runs -/

/-- The calls. `activate` is what `ActivateBestChain` may do: move the active chain to a
branch without failed blocks, which are then valid up to their scripts. -/
inductive Op
  | acceptBlockHeader (header : HeaderInput)
  | invalidBlockFound (pindex : CBlockIndex) (mutated : Bool)
  | invalidateBlock (pindex : CBlockIndex) (events : Nat → LoopEvent)
  | resetBlockFailureFlags (pindex : CBlockIndex)
  | activate (tip : CBlockIndex)

/-- The tree after a call. None stands for a failed assertion. -/
def Op.apply (hashGenesisBlock : Uint256) (tree : BlockTree) : Op → Option BlockTree
  | .acceptBlockHeader header => (tree.acceptBlockHeader hashGenesisBlock header).map Prod.snd
  | .invalidBlockFound pindex mutated => some (tree.invalidBlockFound pindex mutated)
  | .invalidateBlock pindex events => some (tree.invalidateBlock pindex events).2
  | .resetBlockFailureFlags pindex => some (tree.resetBlockFailureFlags pindex)
  | .activate tip => some { tree with
      tip := tip
      status := fun block => if tip.descends block then
          (tree.status block).raiseValidity BLOCK_VALID_SCRIPTS
        else tree.status block }

/-- When a call is made. Blocks are entries of the index, and `ConnectTip` calls
`InvalidBlockFound` for a block that it was about to put on top of the active chain. -/
def Op.Legal : Op → Prop
  | .acceptBlockHeader _ => True
  | .invalidBlockFound pindex _ => pindex ∈ tree.index ∧ ¬ pindex <:+ tree.tip
  | .invalidateBlock pindex _ => pindex ∈ tree.index
  | .resetBlockFailureFlags pindex => pindex ∈ tree.index
  | .activate tip => tip ∈ tree.index ∧
      ∀ block, block <:+ tip → block ≠ [] → (tree.status block).failed = false

/-- A failed block has itself or an ancestor that failed validation, and all descendants
of a block that failed validation are failed. -/
def Consistent : Prop :=
  (∀ block ∈ tree.index, (tree.status block).failed = true →
    ∃ ancestor ∈ tree.index, ancestor <:+ block ∧ (tree.status ancestor).failedValid = true) ∧
  ∀ ancestor ∈ tree.index, (tree.status ancestor).failedValid = true →
    ∀ block ∈ tree.index, ancestor <:+ block → (tree.status block).failed = true

/-- What keeps the flags consistent. When a block is reset, the failed blocks beside it
owe their flag to a block that is not reset with it. When `InvalidateBlock` stops at a
block it cannot disconnect, nothing but failed blocks was built on the blocks it had
disconnected by then. -/
def Op.Safe : Op → Prop
  | .resetBlockFailureFlags pindex => ∀ block ∈ tree.index, (tree.status block).failed = true →
      ¬ pindex <:+ block → ¬ block <:+ pindex →
      ∃ ancestor ∈ tree.index, ancestor <:+ block ∧ (tree.status ancestor).failedValid = true ∧
        ¬ ancestor <:+ pindex
  | .invalidateBlock pindex events =>
    pindex.nHeight ≠ 0 → (invalidateLoop events pindex tree.tip 0 tree pindex).1 = false →
    ∀ removed, removed <:+ tree.tip →
      ¬ removed <:+ (invalidateLoop events pindex tree.tip 0 tree pindex).2.1.tip →
      ∀ block ∈ tree.index, removed <:+ block →
        block <:+ tree.tip ∨ (tree.status block).failed = true
  | _ => True

/-- The blocks recorded, each once, failed validation. -/
def Recorded : Prop :=
  tree.failedBlocks.Nodup ∧ ∀ block ∈ tree.failedBlocks, block ∈ tree.index ∧
    (tree.status block).failedValid = true

end

/-- The shape of a tree: it has the genesis block, is closed under ancestors, no block of
the active chain is failed, and the recorded blocks failed validation. -/
structure Shape (hashGenesisBlock : Uint256) (tree : BlockTree) : Prop where
  genesis : ∃ block ∈ tree.index, block.getBlockHash = hashGenesisBlock
  closed : ∀ block ∈ tree.index, block ≠ [] ∧
    ∀ ancestor, ancestor <:+ block → ancestor ≠ [] → ancestor ∈ tree.index
  tip_mem : tree.tip ∈ tree.index
  chain : ∀ block, block <:+ tree.tip → block ≠ [] → (tree.status block).failed = false
  recorded : tree.Recorded

/-- What holds of a tree between calls: any tree of this kind may be loaded at the start. -/
structure Inv (hashGenesisBlock : Uint256) (tree : BlockTree) : Prop extends
    Shape hashGenesisBlock tree where
  consistent : tree.Consistent

/-- The trees that safe calls lead to. -/
inductive Reaches (hashGenesisBlock : Uint256) (start : BlockTree) : BlockTree → Prop
  | refl : Reaches hashGenesisBlock start start
  | step {tree tree' : BlockTree} {op : Op} (before : Reaches hashGenesisBlock start tree)
      (hlegal : op.Legal tree) (hsafe : op.Safe tree)
      (happly : op.apply hashGenesisBlock tree = some tree') :
      Reaches hashGenesisBlock start tree'

end BlockTree

end BtcSharp
