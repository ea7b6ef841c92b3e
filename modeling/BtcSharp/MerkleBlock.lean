/-
# Partial Merkle trees

`CPartialMerkleTree` of `merkleblock.cpp`: a traversal of the Merkle tree of a block that stores for
every node whether it is the parent of a matched transaction, and the hashes of the nodes where it
stops. The extraction traverses the tree again with these bits and hashes and computes the root.

Widths and positions are unbounded here. Below the number of transactions that `ExtractMatches`
accepts nothing wraps around.
-/

import BtcSharp.Consensus.TxVerify

namespace BtcSharp

/-- The least weight of a transaction. -/
def MIN_TRANSACTION_WEIGHT : Nat := WITNESS_SCALE_FACTOR * 60

structure CPartialMerkleTree (H : Type) where
  nTransactions : Nat
  vBits : List Bool
  vHash : List H
  fBad : Bool
  deriving DecidableEq

/-- `CalcTreeWidth`: the number of nodes at a height. -/
def calcTreeWidth (nTransactions height : Nat) : Nat :=
    (nTransactions + 2 ^ height - 1) / 2 ^ height

/-- Each level is half as wide. -/
theorem calcTreeWidth_succ (nTransactions height : Nat) :
    calcTreeWidth nTransactions (height + 1) = (calcTreeWidth nTransactions height + 1) / 2 := by
  have hpow : 0 < 2 ^ height := Nat.two_pow_pos height
  unfold calcTreeWidth
  rw [pow_succ, ← Nat.div_div_eq_div_mul, ← Nat.add_div_right _ hpow]
  congr 2
  omega

/-- The height of the tree: the loop counts up while there is more than one node. -/
def treeHeight (nTransactions height : Nat) : Nat :=
  if 1 < calcTreeWidth nTransactions height then treeHeight nTransactions (height + 1) else height
termination_by calcTreeWidth nTransactions height
decreasing_by
  rw [calcTreeWidth_succ]
  omega

theorem treeHeight_of_wide {nTransactions height : Nat}
    (h : 1 < calcTreeWidth nTransactions height) :
    treeHeight nTransactions height = treeHeight nTransactions (height + 1) := by
  rw [treeHeight, if_pos h]

theorem treeHeight_of_narrow {nTransactions height : Nat}
    (h : ¬ 1 < calcTreeWidth nTransactions height) : treeHeight nTransactions height = height := by
  rw [treeHeight, if_neg h]

section

variable {H : Type} (hash : H → H → H) (null : H)

def calcHash (nTransactions : Nat) (vTxid : List H) : Nat → Nat → H
  | 0, pos => vTxid.getD pos null
  | height + 1, pos =>
    let left := calcHash nTransactions vTxid height (pos * 2)
    let right := if pos * 2 + 1 < calcTreeWidth nTransactions height
      then calcHash nTransactions vTxid height (pos * 2 + 1) else left
    hash left right

/-- Whether a node is the parent of at least one matched transaction. -/
def parentOfMatch (nTransactions : Nat) (vMatch : List Bool) (height pos : Nat) : Bool :=
  (List.range' (pos * 2 ^ height) (2 ^ height)).any fun p =>
    decide (p < nTransactions) && vMatch.getD p false

/-- `TraverseAndBuild`: the bits and the hashes that it stores. -/
def traverseAndBuild (nTransactions : Nat) (vTxid : List H) (vMatch : List Bool) :
    Nat → Nat → List Bool × List H
  | 0, pos =>
    ([parentOfMatch nTransactions vMatch 0 pos], [calcHash hash null nTransactions vTxid 0 pos])
  | height + 1, pos =>
    if parentOfMatch nTransactions vMatch (height + 1) pos then
      let left := traverseAndBuild nTransactions vTxid vMatch height (pos * 2)
      let right := if pos * 2 + 1 < calcTreeWidth nTransactions height
        then traverseAndBuild nTransactions vTxid vMatch height (pos * 2 + 1) else ([], [])
      (true :: (left.1 ++ right.1), left.2 ++ right.2)
    else ([false], [calcHash hash null nTransactions vTxid (height + 1) pos])

/-- The constructor from a list of transactions and a mask. -/
def CPartialMerkleTree.build (vTxid : List H) (vMatch : List Bool) : CPartialMerkleTree H :=
  let nTransactions := vTxid.length
  let stored := traverseAndBuild hash null nTransactions vTxid vMatch (treeHeight nTransactions 0) 0
  { nTransactions, vBits := stored.1, vHash := stored.2, fBad := false }

/-- What `TraverseAndExtract` changes. -/
structure ExtractState (H : Type) where
  nBitsUsed : Nat
  nHashUsed : Nat
  vMatch : List H
  vnIndex : List Nat
  fBad : Bool

/-- Use a stored hash; one of a matched transaction is reported. -/
def useHash (tree : CPartialMerkleTree H) (report : Bool) (pos : Nat) (state : ExtractState H) :
    H × ExtractState H :=
  match tree.vHash[state.nHashUsed]? with
  | none => (null, { state with fBad := true })
  | some hash =>
    let used := { state with nHashUsed := state.nHashUsed + 1 }
    (hash,
      if report then { used with vMatch := used.vMatch ++ [hash], vnIndex := used.vnIndex ++ [pos] }
      else used)

def traverseAndExtract [DecidableEq H] (tree : CPartialMerkleTree H) :
    Nat → Nat → ExtractState H → H × ExtractState H
  | height, pos, state =>
    match tree.vBits[state.nBitsUsed]? with
    | none => (null, { state with fBad := true })
    | some fParentOfMatch =>
      let state := { state with nBitsUsed := state.nBitsUsed + 1 }
      match height with
      | 0 => useHash null tree fParentOfMatch pos state
      | height + 1 =>
        if !fParentOfMatch then useHash null tree false pos state
        else
          let left := traverseAndExtract tree height (pos * 2) state
          if pos * 2 + 1 < calcTreeWidth tree.nTransactions height then
            let right := traverseAndExtract tree height (pos * 2 + 1) left.2
            (hash left.1 right.1,
              if right.1 = left.1 then { right.2 with fBad := true } else right.2)
          else (hash left.1 left.1, left.2)

/-- `ExtractMatches`: the root or the null hash, the matched transactions and their indices. The
indices are appended to those that are there. -/
def extractMatches [DecidableEq H] (tree : CPartialMerkleTree H) (vnIndex : List Nat) :
    H × List H × List Nat :=
  if tree.nTransactions = 0 then (null, [], vnIndex)
  else if MAX_BLOCK_WEIGHT / MIN_TRANSACTION_WEIGHT < tree.nTransactions then (null, [], vnIndex)
  else if tree.nTransactions < tree.vHash.length then (null, [], vnIndex)
  else if tree.vBits.length < tree.vHash.length then (null, [], vnIndex)
  else
    let extracted := traverseAndExtract hash null tree (treeHeight tree.nTransactions 0) 0
      ⟨0, 0, [], vnIndex, tree.fBad⟩
    let state := extracted.2
    let hashMerkleRoot :=
      if state.fBad then null
      else if (state.nBitsUsed + 7) / 8 ≠ (tree.vBits.length + 7) / 8 then null
      else if state.nHashUsed ≠ tree.vHash.length then null
      else extracted.1
    (hashMerkleRoot, state.vMatch, state.vnIndex)

end

/-! ## Serialization -/

/-- Eight bits as a byte, the least significant first. -/
def packByte (bit : Nat → Bool) : UInt8 :=
  (List.range 8).foldl (fun byte i => byte ||| ((if bit i then 1 else 0) <<< UInt8.ofNat i)) 0

def bitsToBytes (bits : List Bool) : List UInt8 :=
  (List.range ((bits.length + 7) / 8)).map fun q => packByte fun i => bits.getD (8 * q + i) false

def bytesToBits (bytes : List UInt8) : List Bool :=
  (List.range (bytes.length * 8)).map fun p =>
    (bytes.getD (p / 8) 0 &&& (1 <<< UInt8.ofNat (p % 8))) != 0

/-- The serialization of a partial tree. -/
def CPartialMerkleTree.serialize (tree : CPartialMerkleTree Uint256) : List UInt8 :=
  uint32Codec.write (UInt32.ofNat tree.nTransactions) ++ writeVector
    uint256Codec.write tree.vHash ++ bytesCodec.write (bitsToBytes tree.vBits)

/-- Reading a partial tree. -/
def CPartialMerkleTree.unserialize : ByteReader (CPartialMerkleTree Uint256) := do
  let nTransactions ← uint32Codec.read
  let vHash ← readVector uint256Codec.read
  let bytes ← bytesCodec.read
  return { nTransactions := nTransactions.toNat, vHash, vBits := bytesToBits bytes, fBad := false }

end BtcSharp
