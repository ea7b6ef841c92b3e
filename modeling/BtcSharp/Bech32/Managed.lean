/-
# The managed Bech32 class

`Encode` and `Decode` of `bech32.cs`. A string is a list of UTF-16 code units. The characters that
reach `ToLowerInvariant` are ASCII, where it changes the letters only.
-/

import BtcSharp.Math.Loop
import BtcSharp.Bech32.Checksum

namespace BtcSharp

open Math

/-- `DecodeResult` of both implementations. -/
structure DecodeResult where
  encoding : Encoding
  hrp : List Nat
  data : List Nat
  deriving DecidableEq, Repr

/-- `DecodeResult.Invalid`. -/
def DecodeResult.invalid : DecodeResult := ⟨.invalid, [], []⟩

/-- The result for a detected encoding. -/
def DecodeResult.ofChecksum (encoding : Encoding) (hrp values : List Nat) : DecodeResult :=
  if encoding = .invalid then .invalid else ⟨encoding, hrp,
    values.take (values.length - CHECKSUM_SIZE)⟩

/-- The encoding of a remainder, as `VerifyChecksum` returns it. -/
def encodingOfCheck (check : Nat) : Encoding :=
  if check = encodingConstant .bech32 then .bech32
  else if check = encodingConstant .bech32m then .bech32m
  else .invalid

namespace Bech32

/-- The ASCII letters in upper case. -/
def upperCase (c : Nat) : Nat := if 97 ≤ c ∧ c ≤ 122 then c - 97 + 65 else c

/-- `CharsetRev`: both cases of the characters are entered into a table of 128 entries. -/
def CharsetRev : List Int :=
  CHARSET.zipIdx.foldl (fun rev entry => (rev.set entry.1 entry.2).set (upperCase entry.1) entry.2)
    (List.replicate 128 (-1))

/-- `PreparePolynomialCoefficients`. The characters are cut down to bytes. -/
def preparePolynomialCoefficients (hrp values : List Nat) : List Nat :=
  hrp.map (fun c => (c % 256) >>> 5) ++ [0] ++ hrp.map (fun c => (c % 256) &&& 0x1f) ++ values

def verifyChecksum (hrp values : List Nat) : Encoding :=
  encodingOfCheck (polyMod (preparePolynomialCoefficients hrp values))

def createChecksum (encoding : Encoding) (hrp values : List Nat) : List Nat :=
  let enc := preparePolynomialCoefficients hrp values ++ List.replicate CHECKSUM_SIZE 0
  let mod := polyMod enc ^^^ encodingConstant encoding
  unpack mod

/-- `Encode`; `none` is the exception for a value without a character. -/
def encode (encoding : Encoding) (hrp values : List Nat) : Option (List Nat) := do
  let data ← values.mapM fun b => CHARSET[b]?
  let check ← (createChecksum encoding hrp values).mapM fun b => CHARSET[b]?
  return hrp ++ [SEPARATOR] ++ data ++ check

/-- The value of a character after the separator. -/
def decodeSymbol (c : Nat) : Option Nat :=
  if c ≥ 128 then none
  else
    let rev := CharsetRev.getD c (-1)
    if rev = -1 then none else some rev.toNat

def decode (str : List Nat) (limit : Int) : DecodeResult :=
  if checkCharacters str 0 false false ≠ [] then .invalid
  else if (str.length : Int) > limit then .invalid
  else
    match lastSeparator str with
    | none => .invalid
    | some pos =>
      if pos = 0 ∨ pos + CHECKSUM_SIZE ≥ str.length then .invalid
      else
        match (str.drop (pos + 1)).mapM decodeSymbol with
        | none => .invalid
        | some values =>
          let hrp := (str.take pos).map lowerCase
          .ofChecksum (verifyChecksum hrp values) hrp values

/-! ## Characters -/

/-- The characters of the values are read back. -/
theorem decodeSymbol_of_charset {b c : Nat} (h : CHARSET[b]? = some c) :
    decodeSymbol c = some b := by
  have hall : ∀ b < 32, (CHARSET[b]?).bind decodeSymbol = some b := by decide
  have hb : b < 32 := (List.getElem?_eq_some_iff.mp h).1
  have hread := hall b hb
  rw [h] at hread
  exact hread

/-- A character with a value is that of the value, in one of the cases. -/
theorem charset_of_decodeSymbol {b c : Nat} (h : decodeSymbol c = some b) :
    c < 128 ∧ CHARSET[b]? = some (lowerCase c) := by
  have hall : ∀ c < 128, ∀ b ∈ decodeSymbol c, CHARSET[b]? = some (lowerCase c) := by decide +kernel
  have hc : c < 128 := by
    by_contra hc
    rw [decodeSymbol, if_pos (Nat.le_of_not_lt hc)] at h
    cases h
  exact ⟨hc, hall c hc b h⟩

/-- The characters of the set are allowed, and none is a capital or the separator. -/
theorem mem_charset {c : Nat} (h : c ∈ CHARSET) : 33 ≤ c ∧ c ≤ 126 ∧ ¬ (65 ≤ c ∧ c ≤ 90) ∧
    c ≠ SEPARATOR := by
  have hall : ∀ c ∈ CHARSET, 33 ≤ c ∧ c ≤ 126 ∧ ¬ (65 ≤ c ∧ c ≤ 90) ∧ c ≠ SEPARATOR := by decide
  exact hall c h

end Bech32

/-! ## Strings -/

/-- Strings without capitals and without characters outside of the range pass the check. -/
theorem checkCharacters_eq_nil {str : List Nat} (h : ∀ c ∈ str, 33 ≤ c ∧ c ≤ 126 ∧
    ¬ (65 ≤ c ∧ c ≤ 90)) : ∀ (i : Nat) (lower : Bool), checkCharacters str i lower false = [] := by
  induction str with
  | nil => exact fun _ _ => rfl
  | cons c str ih =>
    intro i lower
    obtain ⟨hmin, hmax, hcapital⟩ := h c List.mem_cons_self
    have hrest := ih fun other hother => h other (List.mem_cons_of_mem _ hother)
    rw [checkCharacters, if_neg (show ¬ (c < 33 ∨ c > 126) by omega)]
    split
    · exact hrest (i + 1) true
    · exact hrest (i + 1) lower

theorem lastSeparator_eq_none_iff {str : List Nat} : lastSeparator str = none ↔
    SEPARATOR ∉ str := by
  induction str with
  | nil => simp [lastSeparator]
  | cons c str ih =>
    rw [lastSeparator, List.mem_cons, not_or, ← ih]
    cases lastSeparator str with
    | some pos => simp
    | none => simp [eq_comm]

/-- Where the last separator is. -/
theorem lastSeparator_eq_some_iff {str : List Nat} {pos : Nat} : lastSeparator str = some pos ↔
      ∃ before after, str = before ++ SEPARATOR :: after ∧ SEPARATOR ∉ after ∧
      before.length = pos := by
  induction str generalizing pos with
  | nil => simp [lastSeparator]
  | cons c str ih =>
    rw [lastSeparator]
    constructor
    · intro h
      cases hrest : lastSeparator str with
      | some rest =>
        rw [hrest] at h
        obtain ⟨before, after, rfl, hafter, rfl⟩ := ih.mp hrest
        exact ⟨c :: before, after, rfl, hafter, Option.some.inj h⟩
      | none =>
        rw [hrest] at h
        dsimp only at h
        split at h
        next hc =>
          refine ⟨[], str, ?_, lastSeparator_eq_none_iff.mp hrest, Option.some.inj h⟩
          rw [hc, List.nil_append]
        next => cases h
    · rintro ⟨before, after, hstr, hafter, rfl⟩
      cases before with
      | nil =>
        obtain ⟨rfl, rfl⟩ := List.cons.inj hstr
        rw [lastSeparator_eq_none_iff.mpr hafter]
        rfl
      | cons first before =>
        obtain ⟨rfl, rfl⟩ := List.cons.inj hstr
        rw [ih.mpr ⟨before, after, rfl, hafter, rfl⟩]
        rfl

end BtcSharp
