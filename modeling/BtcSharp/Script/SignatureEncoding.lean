/-
# The encoding of signatures

`IsValidSignatureEncoding` accepts exactly the strict DER encodings of two integers
followed by a hash type. The offsets it reads at come from the signature itself, so the
model tells a read outside of it from an answer.
-/

import Mathlib.Data.List.Basic

namespace BtcSharp

open List

/-- The checks of one integer, which are the same for R and for S. -/
def checkInteger (sig : List UInt8) (pos len : Nat) : Option Bool := do
  if len = 0 then return false
  if (← sig[pos]?) &&& 0x80 ≠ 0 then return false
  if 1 < len then
    if (← sig[pos]?) = 0x00 then
      if (← sig[pos + 1]?) &&& 0x80 = 0 then return false
  return true

/-- `IsValidSignatureEncoding`. None stands for a read outside the signature. -/
def isValidSignatureEncoding (sig : List UInt8) : Option Bool := do
  if sig.length < 9 then return false
  if sig.length > 73 then return false
  if (← sig[0]?) ≠ 0x30 then return false
  if (← sig[1]?).toNat ≠ sig.length - 3 then return false
  let lenR := (← sig[3]?).toNat
  if 5 + lenR ≥ sig.length then return false
  let lenS := (← sig[5 + lenR]?).toNat
  if lenR + lenS + 7 ≠ sig.length then return false
  if (← sig[2]?) ≠ 0x02 then return false
  if !(← checkInteger sig 4 lenR) then return false
  if (← sig[lenR + 4]?) ≠ 0x02 then return false
  checkInteger sig (lenR + 6) lenS

/-- The bytes of an integer: not empty, not negative, and without a leading zero byte
unless the byte after it has its highest bit set. -/
def isDerInteger : List UInt8 → Bool
  | [] => false
  | [first] => first &&& 0x80 = 0
  | first :: second :: _ => first &&& 0x80 = 0 && (first ≠ 0 || second &&& 0x80 ≠ 0)

/-- The grammar: two integers with their types and with lengths of one byte, and the hash type. -/
def IsStrictDer (sig R S : List UInt8) (hashType : UInt8) : Prop :=
  (9 ≤ sig.length ∧ sig.length ≤ 73) ∧ isDerInteger R = true ∧ isDerInteger S = true ∧
    ∃ len lenR lenS :
      UInt8, sig = 0x30 :: len :: 0x02 :: lenR :: (R ++ 0x02 :: lenS :: (S ++ [hashType])) ∧
      len.toNat = sig.length - 3 ∧ lenR.toNat = R.length ∧ lenS.toNat = S.length

theorem checkInteger_append (before int after : List UInt8) :
    checkInteger (before ++ (int ++ after)) before.length int.length = some (isDerInteger int) := by
  match int with
  | [] => rfl
  | [first] | first :: second :: rest => simp [checkInteger, isDerInteger]; grind

section Parts

variable {sig R S rest : List UInt8} {type len typeR lenR typeS lenS hashType : UInt8}

/-- What the function reads where the length of R leads it. -/
theorem reads_of_parts (hsig : sig = type :: len :: typeR :: lenR :: (R ++ typeS :: lenS :: rest))
    (hR : lenR.toNat = R.length) : sig[5 + lenR.toNat]? = some lenS ∧
      sig[lenR.toNat + 4]? = some typeS ∧
      checkInteger sig 4 lenR.toNat = some (isDerInteger R) ∧ ∀ S hashType, rest = S ++ [hashType] →
        lenS.toNat = S.length →
        checkInteger sig (lenR.toNat + 6) lenS.toNat = some (isDerInteger S) := by
  have hcheckR := checkInteger_append [type, len, typeR, lenR] R (typeS :: lenS :: rest)
  refine ⟨?_, ?_, ?_, ?_⟩
  · simp [hsig, hR, Nat.add_comm 5]
  · simp [hsig, hR]
  · simpa [hsig, hR] using hcheckR
  · rintro S hashType rfl hS
    have hcheckS :=
      checkInteger_append (type :: len :: typeR :: lenR :: (R ++ [typeS, lenS])) S [hashType]
    simpa [hsig, hR, hS] using hcheckS

/-- An encoding of the grammar passes every test. -/
theorem IsStrictDer.accepted (h : IsStrictDer sig R S hashType) :
    isValidSignatureEncoding sig = some true := by
  obtain ⟨hsize, hintR, hintS, len, lenR, lenS, hsig, hlen, hR, hS⟩ := h
  obtain ⟨hlenS, htypeS, hcheckR, hcheckS⟩ := reads_of_parts hsig hR
  have hlength : lenR.toNat + lenS.toNat + 7 = sig.length := by
    simp only [hsig, length_cons, length_append, length_nil]
    omega
  have hbytes : sig[0]? = some 0x30 ∧ sig[1]? = some len ∧ sig[2]? = some 0x02 ∧
      sig[3]? = some lenR := by
    simp [hsig]
  unfold isValidSignatureEncoding
  rw [if_neg (Nat.not_lt.mpr hsize.1), if_neg (Nat.not_lt.mpr hsize.2)]
  simp [hbytes, hlen, hlenS, hlength, hcheckR, hintR, htypeS, hcheckS S _ rfl hS, hintS]
  omega

/-- A length that stays inside splits off a part. -/
theorem exists_part {tail : List UInt8} (h : len.toNat < tail.length) :
    ∃ part next rest, tail = part ++ next :: rest ∧ len.toNat = part.length := by
  refine ⟨tail.take len.toNat, tail[len.toNat], tail.drop (len.toNat + 1), ?_, ?_⟩
  · rw [getElem_cons_drop, take_append_drop]
  · rw [length_take_of_le (Nat.le_of_lt h)]

/-- The tests never read outside the signature, and what passes them is of the grammar. The sum of
the lengths leaves one byte behind S. -/
theorem isValidSignatureEncoding_sound (sig : List UInt8) :
    ∃ ok, isValidSignatureEncoding sig = some ok ∧
    (ok = true → ∃ R S hashType, IsStrictDer sig R S hashType) := by
  unfold isValidSignatureEncoding
  split
  · exact ⟨false, rfl, nofun⟩
  split
  · exact ⟨false, rfl, nofun⟩
  next hlow hhigh =>
  match sig with
  | [] | [_] | [_, _] | [_, _, _] => simp at hlow
  | type :: len :: typeR :: lenR :: tail =>
  simp only [getElem?_cons_zero, getElem?_cons_succ, Option.bind_eq_bind, Option.bind_some]
  split
  · exact ⟨false, rfl, nofun⟩
  split
  · exact ⟨false, rfl, nofun⟩
  split
  · exact ⟨false, rfl, nofun⟩
  next htype hlen hinside =>
  simp only [length_cons] at hinside
  obtain ⟨R, typeS, rest, rfl, hR⟩ := @exists_part lenR tail (by omega)
  rw [length_append, length_cons] at hinside
  match rest with
  | [] => simp only [length_nil] at hinside; omega
  | lenS :: rest =>
  obtain ⟨hlenS, htypeS, hcheckR, hcheckS⟩ :=
    @reads_of_parts _ R rest type len typeR lenR typeS lenS rfl hR
  simp only [getElem?_cons_succ] at htypeS
  simp only [hlenS, htypeS, hcheckR, Option.bind_some]
  split
  · exact ⟨false, rfl, nofun⟩
  next hexact =>
  simp only [length_cons, length_append] at hexact
  obtain ⟨S, hashType, after, rfl, hS⟩ := @exists_part lenS rest (by omega)
  simp only [length_cons, length_append] at hexact
  obtain rfl := length_eq_zero_iff.mp (show after.length = 0 by omega)
  rw [hcheckS S hashType rfl hS]
  split
  · exact ⟨false, rfl, nofun⟩
  split
  · exact ⟨false, rfl, nofun⟩
  split
  · exact ⟨false, rfl, nofun⟩
  next htypeR hintR htypeS' =>
  obtain rfl := not_not.mp htype
  obtain rfl := not_not.mp htypeR
  obtain rfl := not_not.mp htypeS'
  refine ⟨_, rfl, fun hintS => ⟨R, S, hashType, ⟨Nat.not_lt.mp hlow, Nat.not_lt.mp hhigh⟩,
    ?_, hintS, ?_⟩⟩
  · simpa using hintR
  · exact ⟨len, lenR, lenS, rfl, not_not.mp hlen, hR, hS⟩

/-- The length in front of a part fixes where it ends. -/
theorem part_inj {part part' rest' : List UInt8} (hR : lenR.toNat = part.length)
    (hS : lenS.toNat = part'.length)
    (h : lenR :: (part ++ rest) = lenS :: (part' ++ rest')) : part = part' ∧ rest = rest' := by
  obtain ⟨rfl, happend⟩ := cons.inj h
  exact append_inj happend (hR.symm.trans hS)

end Parts

/-- `IsValidSignatureEncoding` never reads outside the signature and accepts exactly the
strict DER encodings, each of which has one parse. -/
theorem isValidSignatureEncoding_iff (sig : List UInt8) :
    ∃ ok, isValidSignatureEncoding sig = some ok ∧
    (ok = true ↔ ∃ R S hashType, IsStrictDer sig R S hashType) ∧
    ∀ R S hashType R' S' hashType', IsStrictDer sig R S hashType → IsStrictDer sig R' S' hashType' →
      R = R' ∧ S = S' ∧ hashType = hashType' := by
  obtain ⟨ok, hok, hparse⟩ := isValidSignatureEncoding_sound sig
  refine ⟨ok, hok, ⟨hparse, ?_⟩, ?_⟩
  · rintro ⟨R, S, hashType, h⟩
    exact Option.some.inj (hok.symm.trans h.accepted)
  · rintro R S hashType R' S' hashType' ⟨-, -, -, _, _, _, rfl, -, hR, hS⟩
      ⟨-, -, -, len', lenR', lenS', heq, -, hR', hS'⟩
    obtain ⟨rfl, hrest⟩ := part_inj hR hR' (cons.inj (cons.inj (cons.inj heq).2).2).2
    obtain ⟨rfl, hlast⟩ := part_inj hS hS' (cons.inj hrest).2
    exact ⟨rfl, rfl, (cons.inj hlast).1⟩

end BtcSharp
