/-
# Sizes, variable-length integers and vectors on the wire

The encodings of `serialize.h` that the formats of transactions and undo data are
made of. A CompactSize has one accepted form per value and never announces more
than `MAX_SIZE` elements; a VARINT is the base-128 encoding with the redundancy
removed, read back within the limit of its type.
-/

import BtcSharp.Math.Codec
import Mathlib.Data.List.Induction

namespace BtcSharp

open Math

/-- Why a stream was rejected. -/
inductive SerError
  | endOfData
  | nonCanonicalCompactSize
  | compactSizeTooLarge
  | varIntTooLarge
  | superfluousWitness
  | unknownOptionalData
  deriving DecidableEq, Repr

/-- A reader of a byte stream. -/
abbrev ByteReader := Reader UInt8 SerError

/-- The maximum size of a serialized object in elements. -/
def MAX_SIZE : Nat := 0x02000000

def serReadData8 : ByteReader UInt8 := Reader.one .endOfData

/-- `ser_readdata16`, `ser_readdata32` and `ser_readdata64`, by width. -/
def serReadData (bytes : Nat) : ByteReader Nat := readLE .endOfData bytes

/-! ## CompactSize -/

def writeCompactSize (nSize : Nat) : List UInt8 :=
  if nSize < 253 then [UInt8.ofNat nSize]
  else if nSize ≤ 0xffff then 253 :: writeLE 2 nSize
  else if nSize ≤ 0xffffffff then 254 :: writeLE 4 nSize
  else 255 :: writeLE 8 nSize

/-- A wide form, rejected when a shorter form would do. -/
def readWideSize (bytes least : Nat) : ByteReader Nat := do
  let nSizeRet ← serReadData bytes
  if nSizeRet < least then Reader.fail .nonCanonicalCompactSize else return nSizeRet

/-- The form announced by the first byte. -/
def readSizeForm (chSize : UInt8) : ByteReader Nat :=
  if chSize < 253 then pure chSize.toNat
  else if chSize = 253 then readWideSize 2 253
  else if chSize = 254 then readWideSize 4 0x10000
  else readWideSize 8 0x100000000

def readCompactSize (range_check : Bool) : ByteReader Nat := do
  let chSize ← serReadData8
  let nSizeRet ← readSizeForm chSize
  if range_check && decide (MAX_SIZE < nSizeRet) then Reader.fail .compactSizeTooLarge
  else return nSizeRet

variable {bytes least nSize max n : Nat} {stream rest : List UInt8}

theorem readWideSize_reads (hleast : least ≤ nSize) (hfits : nSize < 256 ^ bytes) :
    (readWideSize bytes least).Reads (writeLE bytes nSize) nSize := by
  refine (readLE_reads _ hfits).map ?_
  rw [if_neg (by omega)]
  exact .pure nSize

theorem readWideSize_canonical (hread : readWideSize bytes least stream = .ok (nSize, rest)) :
    least ≤ nSize ∧ nSize < 256 ^ bytes ∧ stream = writeLE bytes nSize ++ rest := by
  obtain ⟨_, _, hvalue, hnext⟩ := Reader.bind_eq_ok.mp hread
  split at hnext
  · exact absurd hnext Reader.fail_eq_ok
  next hleast =>
  obtain ⟨rfl, rfl⟩ := Reader.pure_eq_ok.mp hnext
  obtain ⟨hfits, hstream⟩ := readLE_canonical _ hvalue
  exact ⟨by omega, hfits, hstream⟩

/-- The first byte of a CompactSize, and the form that follows it. -/
theorem writeCompactSize_form (hfits : nSize < 256 ^ 8) :
    ∃ chSize form, writeCompactSize nSize = chSize :: form ∧
    (readSizeForm chSize).Reads form nSize := by
  unfold writeCompactSize
  split
  · next hsmall =>
    refine ⟨UInt8.ofNat nSize, [], rfl, ?_⟩
    have hbyte : (UInt8.ofNat nSize).toNat = nSize := by
      exact Nat.mod_eq_of_lt (by omega)
    have hlt : UInt8.ofNat nSize < 253 := by
      rw [UInt8.lt_iff_toNat_lt, hbyte]
      exact hsmall
    rw [readSizeForm, if_pos hlt, hbyte]
    exact .pure nSize
  · split
    · exact ⟨253, _, rfl, readWideSize_reads (by omega) (by omega)⟩
    split
    · exact ⟨254, _, rfl, readWideSize_reads (by omega) (by omega)⟩
    · exact ⟨255, _, rfl, readWideSize_reads (by omega) hfits⟩

theorem readCompactSize_reads (hsize : nSize ≤ MAX_SIZE) :
    (readCompactSize true).Reads (writeCompactSize nSize) nSize := by
  have hfits : nSize < 256 ^ 8 := by
    unfold MAX_SIZE at hsize
    omega
  obtain ⟨chSize, _, hwrite, hform⟩ := writeCompactSize_form hfits
  rw [hwrite]
  refine (Reader.Reads.one _ chSize).bind (hform.map ?_)
  rw [if_neg (by simpa using hsize)]
  exact .pure nSize

/-- A form that is read is the one `WriteCompactSize` chooses. -/
theorem readSizeForm_canonical {chSize : UInt8}
    (hread : readSizeForm chSize stream = .ok (nSize, rest)) :
    chSize :: stream = writeCompactSize nSize ++ rest := by
  unfold readSizeForm at hread
  split at hread
  · next hsmall =>
    obtain ⟨rfl, rfl⟩ := Reader.pure_eq_ok.mp hread
    have hsmall' : chSize.toNat < 253 := UInt8.lt_iff_toNat_lt.mp hsmall
    rw [writeCompactSize, if_pos hsmall', UInt8.ofNat_toNat]
    rfl
  · next hlarge =>
    split at hread
    · next hmarker =>
      obtain ⟨hleast, hfits, rfl⟩ := readWideSize_canonical hread
      rw [hmarker, writeCompactSize, if_neg (by omega), if_pos (by omega)]
      rfl
    next hnot253 =>
    split at hread
    · next hmarker =>
      obtain ⟨hleast, hfits, rfl⟩ := readWideSize_canonical hread
      rw [hmarker, writeCompactSize, if_neg (by omega), if_neg (by omega), if_pos (by omega)]
      rfl
    next hnot254 =>
    have hmarker : chSize = 255 := by grind
    obtain ⟨hleast, hfits, rfl⟩ := readWideSize_canonical hread
    rw [hmarker, writeCompactSize, if_neg (by omega), if_neg (by omega), if_neg (by omega)]
    rfl

theorem readCompactSize_canonical (hread : readCompactSize true stream = .ok (nSize, rest)) :
    nSize ≤ MAX_SIZE ∧ stream = writeCompactSize nSize ++ rest := by
  obtain ⟨_, _, hbyte, hnext⟩ := Reader.bind_eq_ok.mp hread
  obtain ⟨_, _, hform, hlast⟩ := Reader.bind_eq_ok.mp hnext
  split at hlast
  · exact absurd hlast Reader.fail_eq_ok
  next hrange =>
  obtain ⟨rfl, rfl⟩ := Reader.pure_eq_ok.mp hlast
  refine ⟨by simpa using hrange, ?_⟩
  rw [← readSizeForm_canonical hform]
  exact Reader.one_eq_ok hbyte

/-- CompactSizes with the range check, as a codec. -/
def compactSizeCodec : Codec UInt8 SerError Nat where
  write := writeCompactSize
  read := readCompactSize true
  valid nSize := nSize ≤ MAX_SIZE
  reads _ hsize := readCompactSize_reads hsize
  canonical _ _ _ hread := readCompactSize_canonical hread

/-! ## Vectors -/

/-- `VectorFormatter::Ser` for an element writer. -/
def writeVector {α : Type} (write : α → List UInt8) (values : List α) : List UInt8 :=
  writeCompactSize values.length ++ values.flatMap write

/-- `VectorFormatter::Unser` for an element reader. -/
def readVector {α : Type} (read : ByteReader α) : ByteReader (List α) := do
  let size ← readCompactSize true
  read.many size

/-- Vectors as a codec. Byte vectors are read in one piece by the source, which is
the same as byte by byte. -/
def vectorCodec {α : Type} (item : Codec UInt8 SerError α) : Codec UInt8 SerError (List α) where
  write := writeVector item.write
  read := readVector item.read
  valid values := values.length ≤ MAX_SIZE ∧ ∀ value ∈ values, item.valid value
  reads := (Codec.counted compactSizeCodec item).reads
  canonical := (Codec.counted compactSizeCodec item).canonical

theorem readVector_reads {α : Type} {read : ByteReader α} {write : α → List UInt8}
    {values : List α} (hsize : values.length ≤ MAX_SIZE)
    (hreads : ∀ value ∈ values, read.Reads (write value) value) :
    (readVector read).Reads (writeVector write values) values :=
  (readCompactSize_reads hsize).bind (.many hreads)

/-! ## Variable-length integers -/

/-- The loop of `WriteVarInt`: the digits go into `tmp` from the lowest on, with the
continuation bit on all but the first, and are written from the highest down.
`slots` is what is left of `tmp`. -/
def writeVarIntLoop : Nat → Nat → Bool → List UInt8 → List UInt8
  | 0, _, _, out => out
  | slots + 1, n, continued, out =>
    let digit := UInt8.ofNat (n % 128 + if continued then 128 else 0)
    if n ≤ 0x7f then digit :: out
    else writeVarIntLoop slots (n / 128 - 1) true (digit :: out)

/-- `WriteVarInt` for an unsigned type of the given number of bits. -/
def writeVarInt (bits n : Nat) : List UInt8 := writeVarIntLoop ((bits + 6) / 7) n false []

/-- The loop of `ReadVarInt`, with the number read so far. -/
def readVarIntLoop (max : Nat) : Nat → ByteReader Nat
  | _, [] => .error .endOfData
  | n, chData :: rest =>
    if max / 128 < n then .error .varIntTooLarge
    else
      let n' := n * 128 + chData.toNat % 128
      if 128 ≤ chData.toNat then
        if n' = max then .error .varIntTooLarge else readVarIntLoop max (n' + 1) rest
      else .ok (n', rest)

/-- `ReadVarInt` for an unsigned type of the given number of bits. -/
def readVarInt (bits : Nat) : ByteReader Nat := readVarIntLoop (2 ^ bits - 1) 0

/-- `GetSizeOfVarInt`, the number of passes of the writer's loop. -/
def getSizeOfVarInt (n : Nat) : Nat :=
  if n ≤ 0x7f then 1 else getSizeOfVarInt (n / 128 - 1) + 1

/-- Where a reader that stands at `n` is after the given continued digits. -/
def varIntFrom (n : Nat) : List UInt8 → Nat
  | [] => n
  | digit :: digits => varIntFrom (n * 128 + digit.toNat % 128 + 1) digits

/-- A complete digit sequence: the continuation bit is on all but the last digit. -/
structure VarIntDigits (digits : List UInt8) (last : UInt8) : Prop where
  continued : ∀ digit ∈ digits, 128 ≤ digit.toNat
  ends : last.toNat < 128

/-- The value that a complete digit sequence denotes. -/
def varIntValue (digits : List UInt8) (last : UInt8) : Nat := varIntFrom 0 digits * 128 + last.toNat

theorem varIntFrom_concat (n : Nat) (digits : List UInt8) (digit : UInt8) :
    varIntFrom n (digits ++ [digit]) = varIntFrom n digits * 128 + digit.toNat % 128 + 1 := by
  induction digits generalizing n <;> grind [varIntFrom]

theorem le_varIntFrom (n : Nat) (digits : List UInt8) : n ≤ varIntFrom n digits := by
  induction digits generalizing n <;> grind [varIntFrom]

/-- A complete digit sequence in range passes every guard of the reader. -/
theorem readVarIntLoop_digits (h : VarIntDigits digits last) (n : Nat) (rest : List UInt8)
    (hrange : varIntFrom n digits * 128 + last.toNat ≤ max) :
    readVarIntLoop max n (digits ++ last :: rest) =
      .ok (varIntFrom n digits * 128 + last.toNat, rest) := by
  obtain ⟨hdigits, hends⟩ := h
  induction digits generalizing n with
  | nil =>
    rw [varIntFrom] at hrange ⊢
    rw [List.nil_append, readVarIntLoop, if_neg (by omega), if_neg (by omega),
      Nat.mod_eq_of_lt hends]
  | cons digit digits ih =>
    obtain ⟨hdigit, hdigits⟩ := List.forall_mem_cons.mp hdigits
    rw [varIntFrom] at hrange ⊢
    have hle := le_varIntFrom (n * 128 + digit.toNat % 128 + 1) digits
    rw [List.cons_append, readVarIntLoop, if_neg (by omega), if_pos hdigit, if_neg (by omega)]
    exact ih _ hrange hdigits

/-- A read that succeeds has consumed a complete digit sequence. The maximum ends in
seven ones, so the guard before the shift leaves room for the digit. -/
theorem readVarIntLoop_ok (hmax : max % 128 = 127)
    (h : readVarIntLoop max n stream = .ok (value, rest)) :
    ∃ digits last, VarIntDigits digits last ∧ stream = digits ++ last :: rest ∧
      value = varIntFrom n digits * 128 + last.toNat ∧ value ≤ max := by
  fun_induction readVarIntLoop max n stream with
  | case1 | case2 | case3 => cases h
  | case4 n chData stream hguard n' hdigit hlast ih =>
    obtain ⟨digits, last, ⟨hdigits, hends⟩, rfl, hvalue⟩ := ih h
    exact ⟨chData :: digits, last, ⟨List.forall_mem_cons.mpr ⟨hdigit, hdigits⟩, hends⟩, rfl, hvalue⟩
  | case5 n chData stream hguard n' hdigit =>
    obtain ⟨rfl, rfl⟩ := Prod.mk.inj (Except.ok.inj h)
    exact ⟨[], chData, ⟨by simp, by omega⟩, rfl, by rw [varIntFrom]; omega, by omega⟩

/-- The writer's loop on a number, given its digits above the lowest. The induction takes
them from the lowest on, as the loop does. -/
theorem writeVarIntLoop_digits {slots n : Nat} {continued : Bool} {out : List UInt8}
    (hdigits : ∀ digit ∈ digits, 128 ≤ digit.toNat) (hn : n / 128 = varIntFrom 0 digits)
    (hfits : n < 128 ^ (slots + 1)) :
    writeVarIntLoop (slots + 1) n continued out =
        digits ++ UInt8.ofNat (n % 128 + if continued then 128 else 0) :: out ∧
      getSizeOfVarInt n = digits.length + 1 ∧ digits.length ≤ slots := by
  induction digits using List.reverseRecOn generalizing slots n continued out with
  | nil =>
    have hsmall : n ≤ 0x7f := Nat.lt_succ_iff.mp (Nat.lt_of_div_eq_zero (by decide) hn)
    rw [writeVarIntLoop, getSizeOfVarInt, if_pos hsmall, if_pos hsmall]
    exact ⟨rfl, rfl, Nat.zero_le _⟩
  | append_singleton digits digit ih =>
    simp only [List.forall_mem_append, List.forall_mem_singleton] at hdigits
    rw [varIntFrom_concat] at hn
    have hlarge : ¬ n ≤ 0x7f := by omega
    cases slots with
    | zero => omega
    | succ slots =>
      have hbyte : UInt8.ofNat ((n / 128 - 1) % 128 + 128) = digit := by
        rw [UInt8.ofNat_eq_iff_mod_eq_toNat]
        have := digit.toNat_lt
        omega
      obtain ⟨hwrite, hsize, hslots⟩ := @ih slots (n / 128 - 1) true
        (UInt8.ofNat (n % 128 + if continued then 128 else 0) :: out) hdigits.1 (by omega)
        (by omega)
      rw [writeVarIntLoop, getSizeOfVarInt, if_neg hlarge, if_neg hlarge, hwrite, hsize,
        if_pos rfl, hbyte]
      simpa using hslots

/-- Every number has a digit sequence. -/
theorem exists_varIntDigits (n : Nat) : ∃ digits last, VarIntDigits digits last ∧
    varIntValue digits last = n := by
  have hbyte : ∀ k < 256, (UInt8.ofNat k).toNat = k := fun k hk => UInt8.toNat_ofNat_of_lt hk
  induction n using getSizeOfVarInt.induct with
  | case1 n hsmall =>
    exact ⟨[], UInt8.ofNat n, ⟨by simp, by grind⟩, by grind [varIntValue, varIntFrom]⟩
  | case2 n hlarge ih =>
    obtain ⟨digits, last, ⟨hdigits, hends⟩, hvalue⟩ := ih
    refine ⟨digits ++ [UInt8.ofNat (last.toNat + 128)], UInt8.ofNat (n % 128),
      ⟨by grind, by grind⟩, ?_⟩
    grind [varIntValue, varIntFrom_concat]

theorem readVarInt_digits (h : VarIntDigits digits last)
    (hvalue : varIntValue digits last < 2 ^ bits) :
    (readVarInt bits).Reads (digits ++ [last]) (varIntValue digits last) := by
  intro rest
  rw [List.append_assoc, List.singleton_append]
  exact readVarIntLoop_digits h 0 rest (Nat.le_sub_one_of_lt hvalue)

section Width

variable {bits : Nat} (hbits : 7 ≤ bits)
include hbits

theorem writeVarInt_digits (h : VarIntDigits digits last)
    (hvalue : varIntValue digits last < 2 ^ bits) :
    writeVarInt bits (varIntValue digits last) = digits ++ [last] ∧
      getSizeOfVarInt (varIntValue digits last) = digits.length + 1 ∧
      digits.length < (bits + 6) / 7 := by
  obtain ⟨slots, hslots⟩ : ∃ slots, (bits + 6) / 7 = slots + 1 := ⟨(bits + 6) / 7 - 1, by omega⟩
  have hfits : varIntValue digits last < 128 ^ (slots + 1) := by
    calc varIntValue digits last < 2 ^ bits := hvalue
      _ ≤ 2 ^ (7 * (slots + 1)) := Nat.pow_le_pow_right (by omega) (by omega)
      _ = 128 ^ (slots + 1) := pow_mul 2 7 (slots + 1)
  have hends := h.ends
  have hquot : varIntValue digits last / 128 = varIntFrom 0 digits := by
    rw [varIntValue]
    omega
  have hmod : varIntValue digits last % 128 = last.toNat := by
    rw [varIntValue]
    omega
  obtain ⟨hwrite, hsize, hlength⟩ := @writeVarIntLoop_digits _ _ _ false [] h.continued hquot hfits
  rw [writeVarInt, hslots, hwrite, hmod]
  exact ⟨by simp, hsize, Nat.lt_succ_of_le hlength⟩

/-- A VARINT within the range of its type is read back. -/
theorem readVarInt_reads (hn : n < 2 ^ bits) : (readVarInt bits).Reads (writeVarInt bits n) n := by
  obtain ⟨digits, last, hdigits, rfl⟩ := exists_varIntDigits n
  rw [(writeVarInt_digits hbits hdigits hn).1]
  exact readVarInt_digits hdigits hn

/-- VARINT is a bijective code: every value of the type is written within the writer's
buffer and read back, whatever is read is what the writer writes for it, and a complete
digit sequence is rejected only if its value is out of range. -/
theorem varInt_bijective :
    (∀ n < 2 ^ bits, (readVarInt bits).Reads (writeVarInt bits n) n ∧
      (writeVarInt bits n).length = getSizeOfVarInt n ∧ getSizeOfVarInt n ≤ (bits + 6) / 7) ∧
    (∀ stream n rest, readVarInt bits stream = .ok (n, rest) →
      n < 2 ^ bits ∧ stream = writeVarInt bits n ++ rest) ∧
    ∀ digits last rest err, VarIntDigits digits last →
      readVarInt bits (digits ++ last :: rest) = .error err →
      2 ^ bits ≤ varIntValue digits last := by
  refine ⟨fun n hn => ⟨readVarInt_reads hbits hn, ?_⟩, ?_, ?_⟩
  · obtain ⟨digits, last, hdigits, rfl⟩ := exists_varIntDigits n
    obtain ⟨hwrite, hsize, hlength⟩ := writeVarInt_digits hbits hdigits hn
    rw [hwrite, hsize, List.length_append, List.length_singleton]
    exact ⟨rfl, hlength⟩
  · intro stream n rest h
    have hpos := Nat.two_pow_pos bits
    have hmax : (2 ^ bits - 1) % 128 = 127 := by
      obtain ⟨high, rfl⟩ := Nat.exists_eq_add_of_le hbits
      rw [pow_add] at hpos ⊢
      omega
    obtain ⟨digits, last, hdigits, rfl, rfl, hle⟩ := readVarIntLoop_ok hmax h
    have hn : varIntValue digits last < 2 ^ bits := Nat.lt_of_le_pred hpos hle
    rw [← varIntValue, (writeVarInt_digits hbits hdigits hn).1]
    exact ⟨hn, by simp⟩
  · intro digits last rest err hdigits h
    by_contra hn
    have hreads := readVarInt_digits hdigits (Nat.not_le.mp hn) rest
    simp [h] at hreads

omit hbits in
theorem varInt_bijective_byte : writeVarInt 8 255 = [0x80, 0x7f] ∧
    (readVarInt 8).Reads [0x80, 0x7f] 255 ∧ 256 ≤ varIntValue [0x81] 0 := by
  obtain ⟨hwrites, -, hrejects⟩ := @varInt_bijective 8 (by decide)
  exact ⟨rfl, (hwrites 255 (by decide)).1, hrejects [0x81] 0 [] _ ⟨by simp, by decide⟩ rfl⟩

end Width

end BtcSharp
