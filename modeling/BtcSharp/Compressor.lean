/-
# Compressed outputs

The compact serialization of outputs used in the coins database and in undo data:
amounts lose their trailing zeros, and the common script forms lose their
opcodes. Every output that can be in the coin set is read back unchanged. Elliptic
curve arithmetic is not modelled; what is used of it is that decompressing the
compressed form of a valid key gives the key.
-/

import BtcSharp.Primitives.Transaction

namespace BtcSharp

open Math List

/-- The part of the curve library that scripts are compressed with. Keys are byte
strings: 65 bytes starting with 4 uncompressed, 33 bytes starting with 2 or 3. -/
structure Secp256k1 where
  isFullyValid : List UInt8 → Bool
  decompress : List UInt8 → Option (List UInt8)
  decompress_compress : ∀ x y : List UInt8, x.length = 32 → y.length = 32 →
    isFullyValid (4 :: (x ++ y)) = true →
      decompress ((2 ||| (y.getLastD 0 &&& 1)) :: x) = some (4 :: (x ++ y))

/-- No key is valid. -/
def Secp256k1.empty : Secp256k1 := ⟨fun _ => false, fun _ => none, nofun⟩

/-! ## Amounts -/

/-- The loop of `CompressAmount` that drops trailing zeros, up to nine of them, with
the exponent counted. `left` is nine minus the exponent. -/
def dropZeros : Nat → Nat → Nat × Nat
  | 0, n => (n, 0)
  | left + 1, n =>
    if n % 10 = 0 then
      match dropZeros left (n / 10) with
      | (digits, e) => (digits, e + 1)
    else (n, 0)

/-- `CompressAmount`, in 64-bit arithmetic. -/
def compressAmount (n : Nat) : Nat :=
  if n = 0 then 0
  else
    match dropZeros 9 n with
    | (digits, e) =>
      if e < 9 then
        (1 + (digits / 10 * 9 + digits % 10 - 1) * 10 + e) % 2 ^ 64
      else (1 + (digits - 1) * 10 + 9) % 2 ^ 64

/-- `DecompressAmount`, in 64-bit arithmetic. -/
def decompressAmount (x : Nat) : Nat :=
  if x = 0 then 0
  else
    let e := (x - 1) % 10
    let rest := (x - 1) / 10
    let n := if e < 9 then rest / 9 * 10 + (rest % 9 + 1) else rest + 1
    n * 10 ^ e % 2 ^ 64

/-- The loop keeps the value: what is left times the power of ten dropped. It stops
early only at a digit that is not zero. -/
theorem dropZeros_spec (left n : Nat) : (dropZeros left n).1 * 10 ^ (dropZeros left n).2 = n ∧
      (dropZeros left n).2 ≤ left ∧
      ((dropZeros left n).2 < left → (dropZeros left n).1 % 10 ≠ 0) := by
  induction left generalizing n with
  | zero => simp [dropZeros]
  | succ left ih =>
    rw [dropZeros]
    split
    · next hzero =>
      obtain ⟨hvalue, hle, hdigit⟩ := ih (n / 10)
      refine ⟨?_, by simpa using hle, fun hlt => hdigit (by simpa using hlt)⟩
      calc (dropZeros left (n / 10)).1 * 10 ^ ((dropZeros left (n / 10)).2 + 1)
          = (dropZeros left (n / 10)).1 * 10 ^ (dropZeros left (n / 10)).2 * 10 := by
            rw [pow_succ, Nat.mul_assoc]
        _ = n / 10 * 10 := by rw [hvalue]
        _ = n := by omega
    · next hdigit => exact ⟨by simp, Nat.zero_le _, fun _ => hdigit⟩

/-- An amount of money survives compression. -/
theorem decompressAmount_compressAmount {n : Nat} (hn : n ≤ 2100000000000000) :
    decompressAmount (compressAmount n) = n := by
  obtain ⟨hvalue, hle, hdigit⟩ := dropZeros_spec 9 n
  rcases hdrop : dropZeros 9 n with ⟨digits, e⟩
  rw [hdrop] at hvalue hle hdigit
  by_cases hzero : n = 0
  · rw [hzero]
    rfl
  have hdigits : digits ≤ n := by
    rw [← hvalue]
    exact Nat.le_mul_of_pos_right digits (pow_pos (by omega) e)
  have hback : digits * 10 ^ e % 2 ^ 64 = n := by
    rw [hvalue]
    exact Nat.mod_eq_of_lt (by omega)
  simp only [compressAmount, hzero, hdrop]
  by_cases he : e < 9
  · rw [Nat.mod_eq_of_lt (by omega)]
    have hx : 1 + (digits / 10 * 9 + digits % 10 - 1) * 10 + e ≠ 0 := by omega
    have hexp : (1 + (digits / 10 * 9 + digits % 10 - 1) * 10 + e - 1) % 10 = e := by omega
    have hrest : (1 + (digits / 10 * 9 + digits % 10 - 1) * 10 + e - 1) / 10 =
        digits / 10 * 9 + digits % 10 - 1 := by omega
    have hn' : (digits / 10 * 9 + digits % 10 - 1) / 9 * 10 +
        ((digits / 10 * 9 + digits % 10 - 1) % 9 + 1) = digits := by omega
    simp only [decompressAmount, hx, if_false, hexp, hrest, he, if_true, hn', hback]
  · obtain rfl : e = 9 := by omega
    rw [if_neg he, Nat.mod_eq_of_lt (by omega)]
    have hx : 1 + (digits - 1) * 10 + 9 ≠ 0 := by omega
    have hexp : (1 + (digits - 1) * 10 + 9 - 1) % 10 = 9 := by omega
    have hrest : (1 + (digits - 1) * 10 + 9 - 1) / 10 = digits - 1 := by omega
    have hn' : digits - 1 + 1 = digits := by omega
    simp only [decompressAmount, hx, if_false, hexp, hrest, he, hn', hback]

theorem compressAmount_lt (n : Nat) : compressAmount n < 2 ^ 64 := by
  unfold compressAmount
  split
  · omega
  · split
    split <;> exact Nat.mod_lt _ (by omega)

/-! ## Scripts -/

def OP_DUP : UInt8 := 0x76
def OP_EQUAL : UInt8 := 0x87
def OP_EQUALVERIFY : UInt8 := 0x88
def OP_HASH160 : UInt8 := 0xa9
def OP_CHECKSIG : UInt8 := 0xac

/-- A script of `before.length + middle + after.length` bytes with these bytes at its
two ends: the middle. The form tests of `compressor.cpp` all have this shape. -/
def between (before after : List UInt8) (middle : Nat) (script : CScript) : Option (List UInt8) :=
  if script.length = before.length + middle + after.length ∧
      script.take before.length = before ∧ script.drop (before.length + middle) = after then
    some ((script.drop before.length).take middle)
  else none

def isToKeyID (script : CScript) : Option (List UInt8) :=
  between [OP_DUP, OP_HASH160, 20] [OP_EQUALVERIFY, OP_CHECKSIG] 20 script

def isToScriptID (script : CScript) : Option (List UInt8) :=
  between [OP_HASH160, 20] [OP_EQUAL] 20 script

/-- The first form of `IsToPubKey`: a compressed key with the given first byte. -/
def isToCompressedKey (kind : UInt8) (script : CScript) : Option (List UInt8) :=
  between [33, kind] [OP_CHECKSIG] 32 script

variable (curve : Secp256k1)

/-- The second form of `IsToPubKey`: an uncompressed key, without its first byte. It
must be a point of the curve, or it could not be recovered. -/
def isToUncompressedKey (script : CScript) : Option (List UInt8) :=
  match between [65, 4] [OP_CHECKSIG] 64 script with
  | some point => if curve.isFullyValid (4 :: point) then some point else none
  | none => none

def compressScript (script : CScript) : Option (List UInt8) :=
  match isToKeyID script with
  | some keyID => some (0 :: keyID)
  | none =>
    match isToScriptID script with
    | some scriptID => some (1 :: scriptID)
    | none =>
      match isToCompressedKey 2 script with
      | some x => some (2 :: x)
      | none =>
        match isToCompressedKey 3 script with
        | some x => some (3 :: x)
        | none =>
          (isToUncompressedKey curve script).map fun point =>
            (4 ||| (point.getLastD 0 &&& 1)) :: point.take 32

def getSpecialScriptSize (nSize : Nat) : Nat :=
  if nSize ≤ 1 then 20 else if nSize ≤ 5 then 32 else 0

def decompressScript (nSize : Nat) (input : List UInt8) : Option CScript :=
  match nSize with
  | 0 => some ([OP_DUP, OP_HASH160, 20] ++ input ++ [OP_EQUALVERIFY, OP_CHECKSIG])
  | 1 => some ([OP_HASH160, 20] ++ input ++ [OP_EQUAL])
  | 2 => some ([33, 2] ++ input ++ [OP_CHECKSIG])
  | 3 => some ([33, 3] ++ input ++ [OP_CHECKSIG])
  | 4 => (curve.decompress (2 :: input)).map fun key => 65 :: key ++ [OP_CHECKSIG]
  | 5 => (curve.decompress (3 :: input)).map fun key => 65 :: key ++ [OP_CHECKSIG]
  | _ => none

/-- The number of special script forms. -/
def nSpecialScripts : Nat := 6

/-- `ScriptCompression::Ser`. -/
def serScript (script : CScript) : List UInt8 :=
  match compressScript curve script with
  | some compressed => compressed
  | none => writeVarInt 32 (script.length + nSpecialScripts) ++ script

/-- `ScriptCompression::Unser`. The result of `DecompressScript` is ignored there: a key that cannot
be decompressed leaves the script empty. An overly long script is replaced with a short invalid one.
-/
def unserScript : ByteReader CScript := do
  let nSize ← readVarInt 32
  if nSize < nSpecialScripts then
    let input ← serReadData8.many (getSpecialScriptSize nSize)
    return (decompressScript curve nSize input).getD []
  else if MAX_SCRIPT_SIZE < nSize - nSpecialScripts then
    let _ ← serReadData8.many (nSize - nSpecialScripts)
    return [OP_RETURN]
  else serReadData8.many (nSize - nSpecialScripts)

/-- `TxOutCompression` of an output. -/
def serTxOut (txout : CTxOut) : List UInt8 :=
  writeVarInt 64 (compressAmount (wordOfAmount txout.nValue)) ++
    serScript curve txout.scriptPubKey

def unserTxOut : ByteReader CTxOut := do
  let amount ← readVarInt 64
  let scriptPubKey ← unserScript curve
  return ⟨amountOfWord (decompressAmount amount), scriptPubKey⟩

/-- A script of the tested form is its two ends around the middle. -/
theorem between_eq_some {before after script middle : List UInt8} {size : Nat}
    (h : between before after size script = some middle) :
    script = before ++ middle ++ after ∧ middle.length = size := by
  unfold between at h
  split at h
  · next hform =>
    obtain ⟨hlength, hbefore, hafter⟩ := hform
    cases h
    have hdrop : (script.drop before.length).drop size = after := by
      rw [drop_drop]
      exact hafter
    refine ⟨?_, ?_⟩
    · calc script = script.take before.length ++ script.drop before.length :=
            (take_append_drop _ _).symm
        _ = before ++
          ((script.drop before.length).take size ++ (script.drop before.length).drop size) := by
            rw [hbefore, take_append_drop]
        _ = before ++ (script.drop before.length).take size ++ after := by
            rw [hdrop, append_assoc]
    · rw [length_take, length_drop]
      omega
  · cases h

/-- The parity byte of an uncompressed key selects which of the two forms is used. -/
theorem parity_cases (last : UInt8) :
      (4 ||| (last &&& 1) = (4 : UInt8) ∧ 2 ||| (last &&& 1) = (2 : UInt8)) ∨
      (4 ||| (last &&& 1) = (5 : UInt8) ∧ 2 ||| (last &&& 1) = (3 : UInt8)) := by
  have hbit : last &&& 1 = 0 ∨ last &&& 1 = 1 := by
    have hmod := Nat.mod_two_eq_zero_or_one last.toNat
    simpa [← UInt8.toNat_inj] using hmod
  rcases hbit with hbit | hbit <;> rw [hbit] <;> decide

/-- A compressed script is a tag and a payload of the size the tag announces, from
which the script is recovered. -/
theorem compressScript_eq_some {curve : Secp256k1} {script compressed : List UInt8}
    (h : compressScript curve script = some compressed) :
    ∃ tag payload, compressed = tag :: payload ∧ tag.toNat < nSpecialScripts ∧
      payload.length = getSpecialScriptSize tag.toNat ∧
      decompressScript curve tag.toNat payload = some script := by
  unfold compressScript at h
  split at h
  · next keyID hform =>
    cases h
    obtain ⟨rfl, hlength⟩ := between_eq_some hform
    exact ⟨0, keyID, rfl, by decide, hlength, rfl⟩
  split at h
  · next scriptID hform =>
    cases h
    obtain ⟨rfl, hlength⟩ := between_eq_some hform
    exact ⟨1, scriptID, rfl, by decide, hlength, rfl⟩
  split at h
  · next x hform =>
    cases h
    obtain ⟨rfl, hlength⟩ := between_eq_some hform
    exact ⟨2, x, rfl, by decide, hlength, rfl⟩
  split at h
  · next x hform =>
    cases h
    obtain ⟨rfl, hlength⟩ := between_eq_some hform
    exact ⟨3, x, rfl, by decide, hlength, rfl⟩
  obtain ⟨_, hform, rfl⟩ := Option.map_eq_some_iff.mp h
  unfold isToUncompressedKey at hform
  split at hform
  · next inner hbetween =>
    split at hform
    · next hvalid =>
      obtain rfl := Option.some.inj hform
      obtain ⟨rfl, hlength⟩ := between_eq_some hbetween
      have hx : (inner.take 32).length = 32 := by simp [hlength]
      have hy : (inner.drop 32).length = 32 := by simp [hlength]
      have hlast : (inner.drop 32).getLastD 0 = inner.getLastD 0 := by
        rw [getLastD_eq_getLast?, getLastD_eq_getLast?, getLast?_drop, if_neg (by omega)]
      have hkey := curve.decompress_compress (inner.take 32) (inner.drop 32) hx hy
        (by rwa [take_append_drop])
      rw [hlast] at hkey
      obtain ⟨htag, hkind⟩ | ⟨htag, hkind⟩ := parity_cases (inner.getLastD 0) <;>
        rw [hkind] at hkey <;> rw [htag]
      · exact ⟨4, _, rfl, by decide, hx, by simp [decompressScript, hkey]⟩
      · exact ⟨5, _, rfl, by decide, hx, by simp [decompressScript, hkey]⟩
    · cases hform
  · cases hform

theorem many_reads_bytes (bytes : List UInt8) :
    (serReadData8.many bytes.length).Reads bytes bytes := by
  have hmany : (serReadData8.many bytes.length).Reads (bytes.flatMap fun byte => [byte]) bytes :=
    .many fun byte _ => .one _ byte
  simpa using hmany

/-- A tag is its own VARINT. -/
theorem readVarInt_reads_tag {tag : UInt8} (htag : tag.toNat < nSpecialScripts) :
    (readVarInt 32).Reads [tag] tag.toNat := by
  unfold nSpecialScripts at htag
  have hdigits : VarIntDigits [] tag := ⟨by simp, by omega⟩
  have hvalue : varIntValue [] tag = tag.toNat := Nat.zero_add _
  rw [← hvalue]
  exact readVarInt_digits hdigits (by omega)

/-- A script that is not overly long is read back. -/
theorem unserScript_reads {script : CScript} (hsize : script.length ≤ MAX_SCRIPT_SIZE) :
    (unserScript curve).Reads (serScript curve script) script := by
  unfold MAX_SCRIPT_SIZE at hsize
  unfold serScript
  split
  · next compressed hcompress =>
    obtain ⟨_, payload, rfl, htag, hlength, hscript⟩ := compressScript_eq_some hcompress
    refine (readVarInt_reads_tag htag).bind ?_
    rw [if_pos htag, ← hlength]
    refine (many_reads_bytes payload).map ?_
    rw [hscript]
    exact .pure script
  · have hfits : script.length + nSpecialScripts < 2 ^ 32 := by
      unfold nSpecialScripts
      omega
    refine (readVarInt_reads (by decide) hfits).bind ?_
    rw [if_neg (by omega), if_neg (by unfold MAX_SCRIPT_SIZE; omega)]
    exact many_reads_bytes script

/-- An output with an amount of money and a script that is not overly long is read
back from its compressed form. -/
theorem unserTxOut_reads {txout : CTxOut} (hvalue : moneyRange txout.nValue = true)
    (hsize : txout.scriptPubKey.length ≤ MAX_SCRIPT_SIZE) :
    (unserTxOut curve).Reads (serTxOut curve txout) txout := by
  obtain ⟨hlow, hhigh⟩ := moneyRange_iff.mp hvalue
  have hmoney : txout.nValue ≤ 2100000000000000 := hhigh
  have hword : wordOfAmount txout.nValue ≤ 2100000000000000 := by
    unfold wordOfAmount
    omega
  have hamount : amountOfWord (decompressAmount (compressAmount
      (wordOfAmount txout.nValue))) = txout.nValue := by
    rw [decompressAmount_compressAmount hword]
    exact amountOfWord_wordOfAmount ⟨by omega, by omega⟩
  refine (readVarInt_reads (by decide) (compressAmount_lt _)).bind
    ((unserScript_reads curve hsize).map ?_)
  rw [hamount]
  exact .pure txout

end BtcSharp
