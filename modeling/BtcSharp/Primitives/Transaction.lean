/-
# Transactions, outpoints and amounts

The data model of `primitives/transaction.h`, `consensus/amount.h` and the part of `script/script.h`
that the coins code reads. Scripts are their bytes, and amounts are integers: where the 64-bit range
of `CAmount` matters, the module that depends on it states the range.

In the extended wire format an empty input vector in front is followed by flag bits. Reading a
transaction back gives the transaction, and every accepted byte string is the serialization of what
it was read as.
-/

import BtcSharp.Serialize
import Mathlib.Data.UInt

namespace BtcSharp

/-- A 256-bit hash. The null hash is zero. -/
abbrev Uint256 := BitVec 256

instance : LawfulBEq Uint256 := inferInstance

def Uint256.isNull (hash : Uint256) : Bool := hash == 0

@[simp]
theorem Uint256.isNull_iff {hash : Uint256} : hash.isNull = true ↔ hash = 0 := by
  simp [Uint256.isNull]

/-- The amount of satoshis in one BTC. -/
def COIN : Int := 100000000

/-- No amount larger than this is valid. -/
def MAX_MONEY : Int := 21000000 * COIN

def moneyRange (nValue : Int) : Bool := decide (0 ≤ nValue) && decide (nValue ≤ MAX_MONEY)

theorem moneyRange_iff {nValue : Int} : moneyRange nValue = true ↔ 0 ≤ nValue ∧
    nValue ≤ MAX_MONEY := by
  simp [moneyRange]

/-- A script is its serialized bytes. -/
abbrev CScript := List UInt8

/-- The opcode that makes an output provably unspendable. -/
def OP_RETURN : UInt8 := 0x6a

/-- Maximum script length in bytes. -/
def MAX_SCRIPT_SIZE : Nat := 10000

def CScript.isUnspendable (script : CScript) : Bool :=
  script.head? == some OP_RETURN || decide (MAX_SCRIPT_SIZE < script.length)

/-- An outpoint: a transaction hash and an index into its outputs. -/
structure COutPoint where
  hash : Uint256
  n : UInt32
  deriving DecidableEq, Repr

def COutPoint.NULL_INDEX : UInt32 := 0xffffffff

def COutPoint.isNull (outpoint : COutPoint) : Bool :=
  outpoint.hash.isNull && outpoint.n == COutPoint.NULL_INDEX

/-- An input. The witness is serialized only through its transaction. -/
structure CTxIn where
  prevout : COutPoint
  scriptSig : CScript
  nSequence : UInt32
  scriptWitness : List (List UInt8) := []
  deriving DecidableEq, Repr

/-- An output. -/
structure CTxOut where
  nValue : Int
  scriptPubKey : CScript
  deriving DecidableEq, Repr

/-- The null output of `CTxOut::SetNull`. -/
def CTxOut.null : CTxOut := ⟨-1, []⟩

def CTxOut.isNull (txout : CTxOut) : Bool := txout.nValue == -1

/-- A transaction. Its hashes are computed from the serialization. -/
structure CTransaction where
  vin : List CTxIn
  vout : List CTxOut
  version : UInt32
  nLockTime : UInt32
  deriving DecidableEq, Repr

namespace CTransaction

def isCoinBase (tx : CTransaction) : Bool :=
  match tx.vin with
  | [txin] => txin.prevout.isNull
  | _ => false

/-- `CTransaction::HasWitness`: some input has a non-empty witness stack. -/
def hasWitness (tx : CTransaction) : Bool :=
  tx.vin.any fun txin => !txin.scriptWitness.isEmpty

end CTransaction

open Math List Reader

/-! ## Fields -/

/-- Unsigned 32-bit integers. -/
def uint32Codec : Codec UInt8 SerError UInt32 :=
  (leCodec .endOfData 4).imap UInt32.ofNat UInt32.toNat (fun _ => True)
    (fun value _ => ⟨value.toNat_lt, UInt32.ofNat_toNat⟩)
    (fun _ hvalue => ⟨trivial, UInt32.toNat_ofNat_of_lt' hvalue⟩)

theorem length_uint32 (value : UInt32) : (uint32Codec.write value).length = 4 := length_writeLE 4 _

/-- The 32 bytes of a hash, in memory order. -/
def uint256Codec : Codec UInt8 SerError Uint256 :=
  (leCodec .endOfData 32).imap (BitVec.ofNat 256) BitVec.toNat (fun _ => True)
    (fun value _ => ⟨value.isLt, BitVec.ofNat_toNat 256 value |>.trans (BitVec.setWidth_eq value)⟩)
    (fun _ hvalue => ⟨trivial, BitVec.toNat_ofNat .. |>.trans (Nat.mod_eq_of_lt hvalue)⟩)

/-- The values of the type of amounts, a signed 64-bit integer. -/
def InInt64 (value : Int) : Prop := -9223372036854775808 ≤ value ∧ value < 9223372036854775808

/-- The amount a 64-bit word stands for in two's complement. -/
def amountOfWord (word : Nat) : Int :=
  if word < 2 ^ 63 then word else word - 2 ^ 64

/-- The two's complement of an amount. -/
def wordOfAmount (value : Int) : Nat := (value % 2 ^ 64).toNat

theorem wordOfAmount_lt (value : Int) : wordOfAmount value < 256 ^ 8 := by
  unfold wordOfAmount
  omega

theorem amountOfWord_wordOfAmount {value : Int} (hvalue : InInt64 value) :
    amountOfWord (wordOfAmount value) = value := by
  unfold InInt64 at hvalue
  unfold amountOfWord wordOfAmount
  split <;> omega

theorem inInt64_amountOfWord {word : Nat} (hword : word < 256 ^ 8) :
    InInt64 (amountOfWord word) ∧ wordOfAmount (amountOfWord word) = word := by
  unfold InInt64 amountOfWord wordOfAmount
  split <;> omega

/-- Amounts, in two's complement. -/
def amountCodec : Codec UInt8 SerError Int :=
  (leCodec .endOfData 8).imap amountOfWord wordOfAmount InInt64
    (fun value hvalue => ⟨wordOfAmount_lt value, amountOfWord_wordOfAmount hvalue⟩)
    (fun _ hword => inInt64_amountOfWord hword)

/-- A single byte. -/
def byteCodec : Codec UInt8 SerError UInt8 where
  write value := [value]
  read := serReadData8
  valid _ := True
  reads value _ := Reader.Reads.one _ value
  canonical _ _ _ hread := ⟨trivial, Reader.one_eq_ok hread⟩

/-- Scripts, witness stack elements and other byte vectors. -/
def bytesCodec : Codec UInt8 SerError (List UInt8) := vectorCodec byteCodec

/-- Witness stacks. -/
def stackCodec : Codec UInt8 SerError (List (List UInt8)) := vectorCodec bytesCodec

/-- `COutPoint`: the hash and the index. -/
def outPointCodec : Codec UInt8 SerError COutPoint :=
  (uint256Codec.seq uint32Codec).imap (fun pair => ⟨pair.1, pair.2⟩)
    (fun outpoint => (outpoint.hash, outpoint.n)) (fun _ => True)
    (fun _ _ => ⟨⟨trivial, trivial⟩, rfl⟩) (fun _ _ => ⟨trivial, rfl⟩)

/-- `CTxIn` without its witness, which is serialized through the transaction. -/
def txInCodec : Codec UInt8 SerError CTxIn :=
  (outPointCodec.seq (bytesCodec.seq uint32Codec)).imap
    (fun fields => ⟨fields.1, fields.2.1, fields.2.2, []⟩)
    (fun txin => (txin.prevout, txin.scriptSig, txin.nSequence))
    (fun txin => bytesCodec.valid txin.scriptSig ∧ txin.scriptWitness = [])
    (by
      rintro ⟨prevout, scriptSig, nSequence, scriptWitness⟩ ⟨hscript, rfl⟩
      exact ⟨⟨trivial, hscript, trivial⟩, rfl⟩)
    (fun _ hvalid => ⟨⟨hvalid.2.1, rfl⟩, rfl⟩)

/-- `CTxOut`. -/
def txOutCodec : Codec UInt8 SerError CTxOut :=
  (amountCodec.seq bytesCodec).imap (fun pair => ⟨pair.1, pair.2⟩)
    (fun txout => (txout.nValue, txout.scriptPubKey))
    (fun txout => InInt64 txout.nValue ∧ bytesCodec.valid txout.scriptPubKey)
    (fun _ hvalid => ⟨hvalid, rfl⟩) (fun _ hvalid => ⟨hvalid, rfl⟩)

/-! ## Transactions -/

variable (allow_witness : Bool)

def serializeTransaction (tx : CTransaction) : List UInt8 :=
  let flags : UInt8 := if allow_witness && tx.hasWitness then 1 else 0
  uint32Codec.write tx.version ++
    (if flags ≠ 0 then writeVector txInCodec.write [] ++ [flags] else []) ++
    writeVector txInCodec.write tx.vin ++ writeVector txOutCodec.write tx.vout ++
    (if flags &&& 1 ≠ 0 then tx.vin.flatMap fun txin => stackCodec.write txin.scriptWitness
      else []) ++
    uint32Codec.write tx.nLockTime

/-- The loop that reads one witness stack for each input. -/
def readWitnesses : List CTxIn → ByteReader (List CTxIn)
  | [] => pure []
  | txin :: rest => do
    let stack ← stackCodec.read
    let others ← readWitnesses rest
    return { txin with scriptWitness := stack } :: others

/-- The inputs, outputs and flags at the start of `UnserializeTransaction`. A first size of zero is
a dummy or an empty vin. -/
def readInsAndOuts : ByteReader (UInt8 × List CTxIn × List CTxOut) := do
  let vin ← readVector txInCodec.read
  if vin.length = 0 ∧ allow_witness = true then
    let flags ← serReadData8
    if flags ≠ 0 then
      let vin ← readVector txInCodec.read
      let vout ← readVector txOutCodec.read
      return (flags, vin, vout)
    else return (0, [], [])
  else
    let vout ← readVector txOutCodec.read
    return (0, vin, vout)

/-- The witnesses, if the flags announce them, and the flags that are left. -/
def readWitnessRecord (flags : UInt8) (vin : List CTxIn) : ByteReader (UInt8 × List CTxIn) :=
  if flags &&& 1 ≠ 0 ∧ allow_witness = true then do
    let vin ← readWitnesses vin
    if vin.any (fun txin => !txin.scriptWitness.isEmpty) then return (flags ^^^ 1, vin)
    else Reader.fail .superfluousWitness
  else pure (flags, vin)

def unserializeTransaction : ByteReader CTransaction := do
  let version ← uint32Codec.read
  let (flags, vin, vout) ← readInsAndOuts allow_witness
  let (flags, vin) ← readWitnessRecord allow_witness flags vin
  if flags ≠ 0 then Reader.fail .unknownOptionalData
  else
    let nLockTime ← uint32Codec.read
    return ⟨vin, vout, version, nLockTime⟩

/-- Field values in range and no vector longer than `MAX_SIZE`. -/
structure CTransaction.InRange (tx : CTransaction) : Prop where
  vin_length : tx.vin.length ≤ MAX_SIZE
  vout_length : tx.vout.length ≤ MAX_SIZE
  scriptSig : ∀ txin ∈ tx.vin, bytesCodec.valid txin.scriptSig
  scriptWitness : ∀ txin ∈ tx.vin, stackCodec.valid txin.scriptWitness
  vout : ∀ txout ∈ tx.vout, txOutCodec.valid txout

/-! ## Inputs and their witnesses -/

/-- An input as it is on the wire, without its witness. -/
def CTxIn.strip (txin : CTxIn) : CTxIn := { txin with scriptWitness := [] }

theorem writeVector_strip (vin : List CTxIn) :
    writeVector txInCodec.write (vin.map CTxIn.strip) = writeVector txInCodec.write vin := by
  rw [writeVector, length_map, flatMap_map]
  rfl

theorem strip_of_isEmpty {txin : CTxIn} (h : txin.scriptWitness = []) : txin.strip = txin := by
  cases txin
  subst h
  rfl

variable {vin : List CTxIn} {tx : CTransaction}

theorem map_strip_of_isEmpty (h : ∀ txin ∈ vin, txin.scriptWitness = []) :
    vin.map CTxIn.strip = vin :=
  (map_congr_left fun txin htxin => strip_of_isEmpty (h txin htxin)).trans (map_id' vin)

/-- Without witnesses the inputs are on the wire as they are. -/
theorem map_strip_of_not_hasWitness
    (h : vin.any (fun txin => !txin.scriptWitness.isEmpty) = false) :
    vin.map CTxIn.strip = vin := by
  apply map_strip_of_isEmpty
  intro txin htxin
  simpa using any_eq_false.mp h txin htxin

theorem readVins_reads (h : tx.InRange) :
      (readVector txInCodec.read).Reads (writeVector txInCodec.write tx.vin)
      (tx.vin.map CTxIn.strip) := by
  rw [← writeVector_strip]
  apply readVector_reads
  · simpa using h.vin_length
  intro txin htxin
  obtain ⟨original, horiginal, rfl⟩ := mem_map.mp htxin
  exact txInCodec.reads _ ⟨h.scriptSig original horiginal, rfl⟩

theorem readVouts_reads (h : tx.InRange) :
    (readVector txOutCodec.read).Reads (writeVector txOutCodec.write tx.vout) tx.vout :=
  readVector_reads h.vout_length fun txout htxout => txOutCodec.reads _ (h.vout txout htxout)

/-- Reading one stack for each stripped input puts the witnesses back. -/
theorem readWitnesses_reads (h : ∀ txin ∈ vin, stackCodec.valid txin.scriptWitness) :
    (readWitnesses (vin.map CTxIn.strip)).Reads
      (vin.flatMap fun txin => stackCodec.write txin.scriptWitness) vin := by
  induction vin with
  | nil => exact .pure []
  | cons txin rest ih =>
    have hhead := stackCodec.reads txin.scriptWitness (h txin mem_cons_self)
    have htail := ih fun other hother => h other (mem_cons_of_mem _ hother)
    exact hhead.bind (htail.map (.pure _))

/-- The witnesses that were read are the bytes consumed, and nothing but the
witnesses of the inputs has changed. -/
theorem readWitnesses_canonical : ∀ {vin' : List CTxIn} {stream rest : List UInt8},
      readWitnesses vin stream = .ok (vin', rest) → vin'.map CTxIn.strip = vin.map CTxIn.strip ∧
          stream = (vin'.flatMap fun txin => stackCodec.write txin.scriptWitness) ++ rest := by
  induction vin with
  | nil =>
    intro vin' stream rest hread
    obtain ⟨rfl, rfl⟩ := pure_eq_ok.mp hread
    exact ⟨rfl, rfl⟩
  | cons txin others ih =>
    intro vin' stream rest hread
    obtain ⟨_, _, hstack, hnext⟩ := bind_eq_ok.mp hread
    obtain ⟨_, _, hothers, hpure⟩ := bind_eq_ok.mp hnext
    obtain ⟨rfl, rfl⟩ := pure_eq_ok.mp hpure
    obtain ⟨-, rfl⟩ := stackCodec.canonical _ _ _ hstack
    obtain ⟨hstrip, rfl⟩ := ih hothers
    refine ⟨?_, by simp⟩
    rw [map_cons, hstrip]
    rfl

/-! ## Writing, then reading -/

/-- Read back without witnesses, in the basic format. -/
theorem readInsAndOuts_basic (h : tx.InRange) (hvin : tx.vin ≠ []) (allow_witness : Bool) :
    (readInsAndOuts allow_witness).Reads
      (writeVector txInCodec.write tx.vin ++ writeVector txOutCodec.write tx.vout)
      (0, tx.vin.map CTxIn.strip, tx.vout) := by
  refine (readVins_reads h).bind ?_
  rw [if_neg (by simp [hvin])]
  exact (readVouts_reads h).map (.pure _)

/-- Read back in the extended format, up to the witnesses. -/
theorem readInsAndOuts_extended (h : tx.InRange) : (readInsAndOuts true).Reads
      (writeVector txInCodec.write [] ++ ([1] ++ (writeVector txInCodec.write tx.vin ++
        writeVector txOutCodec.write tx.vout)))
      (1, tx.vin.map CTxIn.strip, tx.vout) := by
  have hempty : (readVector txInCodec.read).Reads (writeVector txInCodec.write []) [] :=
    readVector_reads (by simp) (by simp)
  refine hempty.bind ?_
  refine (Reader.Reads.one _ (1 : UInt8)).bind ?_
  exact (readVins_reads h).bind ((readVouts_reads h).map (.pure _))

/-- Reading a serialized transaction gives the transaction. -/
theorem unserializeTransaction_reads (h : tx.InRange) (hvin : tx.vin ≠ []) :
    (unserializeTransaction true).Reads (serializeTransaction true tx) tx := by
  have hversion := uint32Codec.reads tx.version trivial
  have hlock : (uint32Codec.read >>= fun nLockTime =>
      (pure ⟨tx.vin, tx.vout, tx.version, nLockTime⟩ : ByteReader CTransaction)).Reads
        (uint32Codec.write tx.nLockTime) tx :=
    (uint32Codec.reads tx.nLockTime trivial).map (.pure _)
  cases hwitness : tx.hasWitness with
  | false =>
    have hstrip := map_strip_of_not_hasWitness hwitness
    have hbody := readInsAndOuts_basic h hvin true
    rw [hstrip] at hbody
    have hrecord : (readWitnessRecord true 0 tx.vin).Reads [] (0, tx.vin) := by
      exact .pure _
    have hbytes : serializeTransaction true tx = uint32Codec.write tx.version ++
        ((writeVector txInCodec.write tx.vin ++ writeVector txOutCodec.write tx.vout) ++
          ([] ++ uint32Codec.write tx.nLockTime)) := by
      simp [serializeTransaction, hwitness]
    rw [hbytes]
    exact hversion.bind (hbody.bind (hrecord.bind hlock))
  | true =>
    have hbody := readInsAndOuts_extended h
    have hrecord : (readWitnessRecord true 1 (tx.vin.map .strip)).Reads
        (tx.vin.flatMap fun txin => stackCodec.write txin.scriptWitness) (0, tx.vin) := by
      refine (readWitnesses_reads h.scriptWitness).map ?_
      rw [if_pos (show tx.vin.any (fun txin => !txin.scriptWitness.isEmpty) = true from hwitness)]
      exact .pure _
    have hbytes : serializeTransaction true tx = uint32Codec.write tx.version ++
        ((writeVector txInCodec.write [] ++ ([1] ++ (writeVector txInCodec.write tx.vin ++
          writeVector txOutCodec.write tx.vout))) ++
          ((tx.vin.flatMap fun txin => stackCodec.write txin.scriptWitness) ++
            uint32Codec.write tx.nLockTime)) := by
      simp [serializeTransaction, hwitness]
    rw [hbytes]
    exact hversion.bind (hbody.bind (hrecord.bind hlock))

/-! ## Reading, then writing -/

/-- The three ways the inputs and outputs can be read, with the bytes consumed. -/
theorem readInsAndOuts_canonical {flags : UInt8} {vout : List CTxOut} {stream rest : List UInt8}
    (hread : readInsAndOuts true stream = .ok ((flags, vin, vout), rest)) :
    vin.map CTxIn.strip = vin ∧ ((flags = 0 ∧ stream = writeVector txInCodec.write vin ++
          (writeVector txOutCodec.write vout ++ rest)) ∨
        (flags ≠ 0 ∧
            stream = writeVector txInCodec.write [] ++ (flags :: (writeVector txInCodec.write vin ++
            (writeVector txOutCodec.write vout ++ rest))))) := by
  have hbare : ∀ {vin : List CTxIn}, (∀ txin ∈ vin, txInCodec.valid txin) →
      vin.map .strip = vin := fun hvalid =>
    map_strip_of_isEmpty fun txin htxin => (hvalid txin htxin).2
  obtain ⟨first, _, hfirst, hnext⟩ := bind_eq_ok.mp hread
  obtain ⟨hvalid, rfl⟩ := (vectorCodec txInCodec).canonical _ _ _ hfirst
  split at hnext
  · next hdummy =>
    obtain rfl : first = [] := length_eq_zero_iff.mp hdummy.1
    obtain ⟨byte, _, hbyte, hflags⟩ := bind_eq_ok.mp hnext
    obtain ⟨-, rfl⟩ := byteCodec.canonical _ _ _ hbyte
    split at hflags
    · next hnonzero =>
      obtain ⟨_, _, hvin, hrest⟩ := bind_eq_ok.mp hflags
      obtain ⟨vout', rest', hvout, hpure⟩ := bind_eq_ok.mp hrest
      obtain ⟨hpair, rfl⟩ := pure_eq_ok.mp hpure
      cases hpair
      obtain ⟨hvins, rfl⟩ := (vectorCodec txInCodec).canonical _ _ _ hvin
      obtain ⟨-, rfl⟩ := (vectorCodec txOutCodec).canonical _ _ _ hvout
      exact ⟨hbare hvins.2, .inr ⟨hnonzero, rfl⟩⟩
    · next hzero =>
      obtain ⟨hpair, rfl⟩ := pure_eq_ok.mp hflags
      cases hpair
      obtain rfl : byte = 0 := by simpa using hzero
      exact ⟨rfl, .inl ⟨rfl, rfl⟩⟩
  · obtain ⟨vout', rest', hvout, hpure⟩ := bind_eq_ok.mp hnext
    obtain ⟨hpair, rfl⟩ := pure_eq_ok.mp hpure
    cases hpair
    obtain ⟨-, rfl⟩ := (vectorCodec txOutCodec).canonical _ _ _ hvout
    exact ⟨hbare hvalid.2, .inl ⟨rfl, rfl⟩⟩

/-- Every accepted stream starts with the serialization of what was read. -/
theorem unserializeTransaction_canonical {stream rest : List UInt8}
    (hread : unserializeTransaction true stream = .ok (tx, rest)) :
    stream = serializeTransaction true tx ++ rest := by
  obtain ⟨version, _, hversion, hnext⟩ := bind_eq_ok.mp hread
  obtain ⟨-, rfl⟩ := uint32Codec.canonical _ _ _ hversion
  obtain ⟨⟨_, vin, vout⟩, _, hbody, hnext⟩ := bind_eq_ok.mp hnext
  obtain ⟨hstrip, hbytes⟩ := readInsAndOuts_canonical hbody
  obtain ⟨⟨left, _⟩, _, hrecord, hnext⟩ := bind_eq_ok.mp hnext
  simp only at hrecord hnext
  split at hnext
  · exact absurd hnext fail_eq_ok
  next hleft =>
  obtain rfl : left = 0 := by simpa using hleft
  obtain ⟨nLockTime, _, hlock, hpure⟩ := bind_eq_ok.mp hnext
  obtain ⟨rfl, rfl⟩ := pure_eq_ok.mp hpure
  obtain ⟨-, rfl⟩ := uint32Codec.canonical _ _ _ hlock
  unfold readWitnessRecord at hrecord
  split at hrecord
  · obtain ⟨vin'', _, hwitnesses, hcheck⟩ := bind_eq_ok.mp hrecord
    split at hcheck
    · next hwitness =>
      obtain ⟨hpair, rfl⟩ := pure_eq_ok.mp hcheck
      obtain ⟨hflags, rfl⟩ := Prod.mk.inj hpair
      obtain rfl := UInt8.xor_eq_zero_iff.mp hflags
      obtain ⟨hstrip', rfl⟩ := readWitnesses_canonical hwitnesses
      obtain ⟨hzero, -⟩ | ⟨-, rfl⟩ := hbytes
      · cases hzero
      have hsame : writeVector txInCodec.write vin = writeVector txInCodec.write vin'' := by
        rw [← writeVector_strip vin'', hstrip', hstrip]
      have hhas : CTransaction.hasWitness ⟨vin'', vout, version, nLockTime⟩ = true :=
        hwitness
      rw [hsame]
      simp [serializeTransaction, hhas]
    · exact absurd hcheck fail_eq_ok
  · obtain ⟨hpair, rfl⟩ := pure_eq_ok.mp hrecord
    cases hpair
    obtain ⟨-, rfl⟩ | ⟨hnonzero, -⟩ := hbytes
    · have hhas : CTransaction.hasWitness ⟨vin, vout, version, nLockTime⟩ = false := by
        rw [CTransaction.hasWitness, ← hstrip]
        simp [CTxIn.strip]
      simp [serializeTransaction, hhas]
    · exact absurd rfl hnonzero

/-- **One encoding per transaction.** A transaction in range with an input is read
back from its serialization, leaving the rest of the stream unread, and every stream
that is accepted starts with the serialization of the transaction it was read as. -/
theorem transaction_wire_format : (∀ tx : CTransaction, tx.InRange → tx.vin ≠ [] → ∀ rest,
      unserializeTransaction true (serializeTransaction true tx ++ rest) = .ok (tx, rest)) ∧
    (∀ (stream rest : List UInt8) (tx : CTransaction), unserializeTransaction true stream =
        .ok (tx, rest) → stream = serializeTransaction true tx ++ rest) :=
  ⟨fun _ => unserializeTransaction_reads,
    fun _ _ _ => unserializeTransaction_canonical⟩

/-- A transaction with a witness, followed by another byte. -/
theorem transaction_wire_format_sample : unserializeTransaction true (serializeTransaction true
        ⟨[⟨⟨1, 0⟩, [], 0, [[5]]⟩], [⟨1, []⟩], 2, 0⟩ ++ [7]) =
      .ok (⟨[⟨⟨1, 0⟩, [], 0, [[5]]⟩], [⟨1, []⟩], 2, 0⟩, [7]) := by
  apply transaction_wire_format.1
  · refine ⟨by decide, by decide, ?_, ?_, ?_⟩ <;>
      simp [bytesCodec, stackCodec, vectorCodec, byteCodec, txOutCodec, Codec.imap,
      InInt64, MAX_SIZE]
  · simp

end BtcSharp
