/-
# Undo data

What `ConnectBlock` records of the coins a block spends, and its serialization. The
metadata of a coin is one number, and a height of zero stands for missing metadata,
which no coin of a chain after the genesis block has.
-/

import BtcSharp.Compressor
import BtcSharp.Coins.Coin

namespace BtcSharp

open Math

/-- Undo information for the inputs of a transaction. -/
structure CTxUndo where
  vprevout : List Coin := []
  deriving DecidableEq, Repr

/-- Undo information for all transactions of a block but the coinbase. -/
structure CBlockUndo where
  vtxundo : List CTxUndo := []
  deriving DecidableEq, Repr

section

variable (curve : Secp256k1)

/-- `TxInUndoFormatter::Ser`. The byte after a non-zero height is a dummy version. -/
def serTxInUndo (coin : Coin) : List UInt8 :=
  writeVarInt 32 ((coin.nHeight * 2 + coin.fCoinBase.toNat) % 2 ^ 32) ++
    (if 0 < coin.nHeight then [0] else []) ++ serTxOut curve coin.out

/-- `TxInUndoFormatter::Unser`. -/
def unserTxInUndo : ByteReader Coin := do
  let nCode ← readVarInt 32
  if 0 < nCode / 2 then
    let _ ← readVarInt 32
    let out ← unserTxOut curve
    return ⟨out, nCode % 2 = 1, nCode / 2⟩
  else
    let out ← unserTxOut curve
    return ⟨out, nCode % 2 = 1, nCode / 2⟩

/-- `Coin::Serialize`, which asserts that the coin is unspent. -/
def Coin.serialize (coin : Coin) : Option (List UInt8) :=
  if coin.isSpent then none
  else some (writeVarInt 32 ((coin.nHeight * 2 + coin.fCoinBase.toNat) % 2 ^ 32) ++ serTxOut
    curve coin.out)

/-- `Coin::Unserialize`. -/
def Coin.unserialize : ByteReader Coin := do
  let code ← readVarInt 32
  let out ← unserTxOut curve
  return ⟨out, code % 2 = 1, code / 2⟩

def serTxUndo (txundo : CTxUndo) : List UInt8 :=
  writeVector (serTxInUndo curve) txundo.vprevout

def unserTxUndo : ByteReader CTxUndo := do
  let vprevout ← readVector (unserTxInUndo curve)
  return ⟨vprevout⟩

/-- The serialization of `CBlockUndo`. -/
def serBlockUndo (blockundo : CBlockUndo) : List UInt8 :=
  writeVector (serTxUndo curve) blockundo.vtxundo

def unserBlockUndo : ByteReader CBlockUndo := do
  let vtxundo ← readVector (unserTxUndo curve)
  return ⟨vtxundo⟩

end

/-- A coin as a chain of less than `2 ^ 31` blocks can have it: a height that fits its
field, an amount of money, and a script that may still be spent. -/
structure Coin.Valid (coin : Coin) : Prop where
  height : coin.nHeight < 2 ^ 31
  value : moneyRange coin.out.nValue = true
  script : coin.out.scriptPubKey.isUnspendable = false

theorem length_of_not_isUnspendable {script : CScript} (h : script.isUnspendable = false) :
    script.length ≤ MAX_SCRIPT_SIZE := by
  unfold CScript.isUnspendable at h
  simp only [Bool.or_eq_false_iff, decide_eq_false_iff_not, Nat.not_lt] at h
  exact h.2

section Records

variable (curve : Secp256k1) {coin : Coin} (hheight : coin.nHeight < 2 ^ 31)
  (hvalue : moneyRange coin.out.nValue = true)
    (hsize : coin.out.scriptPubKey.length ≤ MAX_SCRIPT_SIZE)

include hheight hvalue hsize

/-- The metadata is read back as one number, and after it the output. -/
theorem coinCode_reads : ∃ code, code / 2 = coin.nHeight ∧ (readVarInt 32).Reads
      (writeVarInt 32 ((coin.nHeight * 2 + coin.fCoinBase.toNat) % 2 ^ 32)) code ∧
    (unserTxOut curve >>= fun out => (pure ⟨out, code % 2 = 1, code / 2⟩ : ByteReader Coin)).Reads
      (serTxOut curve coin.out) coin := by
  have hbit := Bool.toNat_lt coin.fCoinBase
  obtain ⟨code, hcode⟩ : ∃ code, code = coin.nHeight * 2 + coin.fCoinBase.toNat := ⟨_, rfl⟩
  have hmod : code % 2 ^ 32 = code := Nat.mod_eq_of_lt (by omega)
  have hquot : code / 2 = coin.nHeight := by omega
  have hflag : decide (code % 2 = 1) = coin.fCoinBase := by
    have hrem : code % 2 = coin.fCoinBase.toNat := by omega
    rw [hrem]
    cases coin.fCoinBase <;> rfl
  rw [← hcode, hmod]
  refine ⟨code, hquot, readVarInt_reads (by decide) (by omega),
    (unserTxOut_reads curve hvalue hsize).map ?_⟩
  rw [hflag, hquot]
  exact .pure coin

/-- An undo record is read back, with or without a height. -/
theorem unserTxInUndo_reads : (unserTxInUndo curve).Reads (serTxInUndo curve coin) coin := by
  obtain ⟨_, hquot, hread, hlast⟩ := coinCode_reads curve hheight hvalue hsize
  unfold serTxInUndo
  rw [List.append_assoc]
  refine hread.bind ?_
  rw [hquot] at hlast ⊢
  split
  · have hdummy : (readVarInt 32).Reads [0] 0 := readVarInt_reads (n := 0) (by decide) (by decide)
    exact hdummy.bind hlast
  · exact hlast

/-- Both records of an unspent coin, that of the coins database and that of the undo data, are read
back whatever follows them. -/
theorem coin_records_read_back (hspent : coin.isSpent = false) :
    (∃ record, coin.serialize curve = some record ∧ (Coin.unserialize curve).Reads record coin) ∧
      (unserTxInUndo curve).Reads (serTxInUndo curve coin) coin := by
  obtain ⟨_, -, hread, hlast⟩ := coinCode_reads curve hheight hvalue hsize
  refine ⟨⟨_, if_neg (by simp [hspent]), hread.bind hlast⟩, ?_⟩
  exact unserTxInUndo_reads curve hheight hvalue hsize

end Records

/-- A coinbase output of the second block. -/
theorem coinbase_record_read_back : (unserTxInUndo .empty).Reads
    (serTxInUndo .empty ⟨⟨5000000000, [81]⟩, true, 1⟩) ⟨⟨5000000000, [81]⟩, true, 1⟩ :=
  (@coin_records_read_back .empty _ (by decide) (by decide) (by decide) (by decide)).2

/-- Undo data of valid coins is read back when no vector is too long. -/
theorem unserBlockUndo_reads (curve : Secp256k1) {blockundo : CBlockUndo}
    (hcount : blockundo.vtxundo.length ≤ MAX_SIZE)
    (hcounts : ∀ txundo ∈ blockundo.vtxundo, txundo.vprevout.length ≤ MAX_SIZE)
    (hvalid : ∀ txundo ∈ blockundo.vtxundo, ∀ coin ∈ txundo.vprevout, coin.Valid) :
    (unserBlockUndo curve).Reads (serBlockUndo curve blockundo) blockundo := by
  have hitems : ∀ txundo ∈ blockundo.vtxundo,
      (unserTxUndo curve).Reads (serTxUndo curve txundo) txundo := by
    intro txundo htxundo
    have hcoins := readVector_reads (hcounts txundo htxundo)
      fun coin hcoin =>
        have h := hvalid txundo htxundo coin hcoin
        unserTxInUndo_reads curve h.height h.value (length_of_not_isUnspendable h.script)
    exact hcoins.map (.pure _)
  exact (readVector_reads hcount hitems).map (.pure _)

end BtcSharp
