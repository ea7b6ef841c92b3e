/-
# The checksum of Bech32

`PolyMod` and what it is used with, which the native `bech32.cpp` and the managed `bech32.cs` have
in common. Characters, bytes and remainders are natural numbers here. The remainder is a 32-bit
number in both implementations, of which only 30 bits are used.

A round of `PolyMod` is a linear map of the remainder to which the next value is added. So appending
six values can reach every remainder, and in one way only.
-/

import BtcSharp.Math.XorLinear

namespace BtcSharp

open Function List Math Nat XorLinear

/-- `Encoding` of both implementations. -/
inductive Encoding
  | invalid
  | bech32
  | bech32m
  deriving DecidableEq, Repr

def CHECKSUM_SIZE : Nat := 6

/-- `'1'`. -/
def SEPARATOR : Nat := 49

/-- The character limit of addresses. -/
def CharLimit : Nat := 90

/-- The character set for encoding, as code units. -/
def CHARSET : List Nat :=
  ['q', 'p', 'z', 'r', 'y', '9', 'x', '8', 'g', 'f', '2', 't', 'v', 'd', 'w', '0',
    's', '3', 'j', 'n', '5', '4', 'k', 'h', 'c', 'e', '6', 'm', 'u', 'a', '7', 'l'].map Char.toNat

def encodingConstant (encoding : Encoding) : Nat := if encoding = .bech32 then 1 else 0x2bc830a3

/-- A round of the loop of `PolyMod`. -/
def polyModStep (c v : Nat) : Nat :=
  let c0 := c >>> 25
  let c := ((c &&& 0x1ffffff) <<< 5) ^^^ v
  let c := if c0.testBit 0 then c ^^^ 0x3b6a57b2 else c
  let c := if c0.testBit 1 then c ^^^ 0x26508e6d else c
  let c := if c0.testBit 2 then c ^^^ 0x1ea119fa else c
  let c := if c0.testBit 3 then c ^^^ 0x3d4233dd else c
  if c0.testBit 4 then c ^^^ 0x2a1462b3 else c

/-- The loop of `PolyMod` from a remainder on. -/
def remainder (c : Nat) (values : List Nat) : Nat := values.foldl polyModStep c

def polyMod (v : List Nat) : Nat := remainder 1 v

/-- The six groups of five bits of a number, which `CreateChecksum` returns. -/
def unpack (mod : Nat) : List Nat :=
    (List.range CHECKSUM_SIZE).map fun i => (mod >>> (5 * (5 - i))) &&& 31

/-- `CheckCharacters`: the positions of characters that are not allowed or in the other case. -/
def checkCharacters : List Nat → (i : Nat) → (lower upper : Bool) → List Nat
  | [], _, _, _ => []
  | c :: str, i, lower, upper =>
    if 97 ≤ c ∧ c ≤ 122 then
      if upper then i :: checkCharacters str (i + 1) lower upper
      else checkCharacters str (i + 1) true upper
    else if 65 ≤ c ∧ c ≤ 90 then
      if lower then i :: checkCharacters str (i + 1) lower upper
      else checkCharacters str (i + 1) lower true
    else if c < 33 ∨ c > 126 then i :: checkCharacters str (i + 1) lower upper
    else checkCharacters str (i + 1) lower upper

/-- The position of the last occurrence of the separator. -/
def lastSeparator : List Nat → Option Nat
  | [] => none
  | c :: str =>
    match lastSeparator str with
    | some pos => some (pos + 1)
    | none => if c = SEPARATOR then some 0 else none

/-- The ASCII letters in lower case. -/
def lowerCase (c : Nat) : Nat := if 65 ≤ c ∧ c ≤ 90 then c - 65 + 97 else c

/-! ## Linearity -/

/-- A round without a value. -/
def shiftRemainder (c : Nat) : Nat := polyModStep c 0

theorem polyModStep_eq (c v : Nat) :
    polyModStep c v = ((c &&& 0x1ffffff) <<< 5) ^^^
      (if (c >>> 25).testBit 0 then 0x3b6a57b2 else 0) ^^^
      (if (c >>> 25).testBit 1 then 0x26508e6d else 0) ^^^
        (if (c >>> 25).testBit 2 then 0x1ea119fa else 0) ^^^
      (if (c >>> 25).testBit 3 then 0x3d4233dd else 0) ^^^
        (if (c >>> 25).testBit 4 then 0x2a1462b3 else 0) ^^^
      v := by
  have hadd : ∀ (b : Bool) (c k : Nat), (if b then c ^^^ k else c) = c ^^^
      (if b then k else 0) := by
    intro b c k
    cases b <;> simp
  simp only [polyModStep, hadd]
  ac_rfl

theorem polyModStep_eq_shiftRemainder (c v : Nat) : polyModStep c v = shiftRemainder c ^^^ v := by
  rw [shiftRemainder, polyModStep_eq, polyModStep_eq, Nat.xor_zero]

theorem shiftRemainder_linear : XorLinear shiftRemainder := by
  have hparts :
      XorLinear fun c => ((c &&& 0x1ffffff) <<< 5) ^^^
        (if (c >>> 25).testBit 0 then 0x3b6a57b2 else 0) ^^^
      (if (c >>> 25).testBit 1 then 0x26508e6d else 0) ^^^
        (if (c >>> 25).testBit 2 then 0x1ea119fa else 0) ^^^
      (if (c >>> 25).testBit 3 then 0x3d4233dd else 0) ^^^
        (if (c >>> 25).testBit 4 then 0x2a1462b3 else 0) := by
    have hshift := XorLinear.shiftRight 25
    apply XorLinear.xor
    · apply XorLinear.xor
      · apply XorLinear.xor
        · apply XorLinear.xor
          · apply XorLinear.xor
            · exact (XorLinear.shiftLeft 5).comp (.and 0x1ffffff)
            · exact (select 0 _).comp hshift
          · exact (select 1 _).comp hshift
        · exact (select 2 _).comp hshift
      · exact (select 3 _).comp hshift
    · exact (select 4 _).comp hshift
  intro a b
  have h := hparts a b
  dsimp only at h
  rw [shiftRemainder, shiftRemainder, shiftRemainder, polyModStep_eq, polyModStep_eq,
    polyModStep_eq, Nat.xor_zero, Nat.xor_zero, Nat.xor_zero, h]

/-- A round keeps 30 bits. -/
theorem shiftRemainder_lt (c : Nat) : shiftRemainder c < 2 ^ 30 := by
  have hlow : (c &&& 0x1ffffff) <<< 5 < 2 ^ 30 := by
    have hmask : c &&& 0x1ffffff < 2 ^ 25 := and_lt_two_pow c (by decide)
    omega
  have hselect : ∀ (b : Bool) (k : Nat), k < 2 ^ 30 → (if b then k else 0) < 2 ^ 30 := by
    intro b k hk
    split
    · exact hk
    · exact Nat.two_pow_pos 30
  rw [shiftRemainder, polyModStep_eq, Nat.xor_zero]
  apply xor_lt_two_pow _ (hselect _ _ (by decide))
  apply xor_lt_two_pow _ (hselect _ _ (by decide))
  apply xor_lt_two_pow _ (hselect _ _ (by decide))
  apply xor_lt_two_pow _ (hselect _ _ (by decide))
  exact xor_lt_two_pow hlow (hselect _ _ (by decide))

variable {c a b mod : Nat} {values : List Nat}

/-- Below 25 bits a round is a shift. -/
theorem shiftRemainder_of_lt (h : c < 2 ^ 25) : shiftRemainder c = c * 32 := by
  have hzero : c >>> 25 = 0 := by
    rw [shiftRight_eq_div_pow]
    exact div_eq_of_lt h
  have hmask : c &&& 0x1ffffff = c := by
    rw [show (0x1ffffff : Nat) = 2 ^ 25 - 1 by decide, and_two_pow_sub_one_eq_mod, mod_eq_of_lt h]
  simp [shiftRemainder, polyModStep, hzero, hmask, shiftLeft_eq]

/-- Only the zero remainder is shifted to zero: the last value tells which multiple of the generator
was added. -/
theorem shiftRemainder_eq_zero (hc : c < 2 ^ 30) (h : shiftRemainder c = 0) : c = 0 := by
  have hhigh : ∀ high < 32, shiftRemainder (high * 2 ^ 25) % 32 = 0 → high = 0 := by decide
  have hlow := mod_lt c (Nat.two_pow_pos 25)
  have hsplit : c / 2 ^ 25 * 2 ^ 25 ^^^ c % 2 ^ 25 = c := by
    rw [mul_two_pow_xor hlow]
    exact div_add_mod' c _
  have hsum : shiftRemainder (c / 2 ^ 25 * 2 ^ 25) = c % 2 ^ 25 * 32 := by
    apply xor_eq_zero_iff.mp
    rw [← shiftRemainder_of_lt hlow, ← shiftRemainder_linear, hsplit, h]
  have hzero : c / 2 ^ 25 = 0 := by
    apply hhigh _ (by omega)
    rw [hsum]
    exact mul_mod_left _ _
  rw [hzero, zero_mul, shiftRemainder_linear.map_zero] at hsum
  omega

theorem shiftRemainder_inj (ha : a < 2 ^ 30) (hb : b < 2 ^ 30)
    (h : shiftRemainder a = shiftRemainder b) : a = b := by
  apply xor_eq_zero_iff.mp
  apply shiftRemainder_eq_zero (xor_lt_two_pow ha hb)
  rw [shiftRemainder_linear, h, Nat.xor_self]

theorem iterate_shiftRemainder_inj {n : Nat} :
    ∀ {a b : Nat}, a < 2 ^ 30 → b < 2 ^ 30 →
    shiftRemainder^[n] a = shiftRemainder^[n] b → a = b := by
  induction n with
  | zero => exact fun _ _ h => h
  | succ n ih =>
    intro a b ha hb h
    exact shiftRemainder_inj ha hb (ih (shiftRemainder_lt a) (shiftRemainder_lt b) h)

/-! ## The remainder of a list -/

theorem remainder_cons (c value : Nat) (values : List Nat) :
    remainder c (value :: values) = remainder (shiftRemainder c ^^^ value) values := by
  rw [← polyModStep_eq_shiftRemainder]
  rfl

theorem remainder_append (c : Nat) (first second : List Nat) :
    remainder c (first ++ second) = remainder (remainder c first) second := foldl_append

/-- The remainder at the start is shifted through, and the values are added to it. -/
theorem remainder_eq (c : Nat) (values : List Nat) :
    remainder c values = shiftRemainder^[values.length] c ^^^ remainder 0 values := by
  induction values generalizing c with
  | nil => exact (Nat.xor_zero c).symm
  | cons value values ih =>
    rw [remainder_cons, remainder_cons, ih, ih (shiftRemainder 0 ^^^ value),
      shiftRemainder_linear.iterate, shiftRemainder_linear.iterate, shiftRemainder_linear.map_zero,
      (shiftRemainder_linear.iterate _).map_zero, length_cons, iterate_succ_apply, Nat.zero_xor,
      Nat.xor_assoc]

theorem remainder_lt (hvalues : ∀ value ∈ values, value < 32) :
    ∀ {c : Nat}, c < 2 ^ 30 → remainder c values < 2 ^ 30 := by
  induction values with
  | nil => exact fun hc => hc
  | cons value values ih =>
    intro c _
    have hvalue := hvalues value mem_cons_self
    rw [remainder_cons]
    apply ih fun other hother => hvalues other (mem_cons_of_mem _ hother)
    exact xor_lt_two_pow (shiftRemainder_lt c) (by omega)

/-! ## Six values -/

/-- Values of five bits in one number. -/
def pack (values : List Nat) : Nat := values.foldl (fun packed value => packed * 32 + value) 0

theorem unpack_eq (mod : Nat) :
    unpack mod = [mod / 2 ^ 25 % 32, mod / 2 ^ 20 % 32, mod / 2 ^ 15 % 32, mod / 2 ^ 10 % 32,
      mod / 2 ^ 5 % 32, mod % 32] := by
  have hgroup : ∀ k, (mod >>> k) &&& 31 = mod / 2 ^ k % 32 := by
    intro k
    rw [shiftRight_eq_div_pow, show (31 : Nat) = 2 ^ 5 - 1 by decide, and_two_pow_sub_one_eq_mod]
  have hranges : unpack mod = [(mod >>> 25) &&& 31, (mod >>> 20) &&& 31, (mod >>> 15) &&& 31,
      (mod >>> 10) &&& 31, (mod >>> 5) &&& 31, (mod >>> 0) &&& 31] := rfl
  rw [hranges, hgroup, hgroup, hgroup, hgroup, hgroup, hgroup, pow_zero, Nat.div_one]

theorem pack_unpack (h : mod < 2 ^ 30) : pack (unpack mod) = mod := by
  rw [unpack_eq]
  simp only [pack, foldl_cons, foldl_nil]
  omega

theorem unpack_pack (hlength : values.length = CHECKSUM_SIZE)
    (hvalues : ∀ value ∈ values, value < 32) : unpack (pack values) = values := by
  obtain ⟨a, b, c, d, e, f, rfl⟩ : ∃ a b c d e f, values = [a, b, c, d, e, f] := by
    match values, hlength with
    | [a, b, c, d, e, f], _ => exact ⟨a, b, c, d, e, f, rfl⟩
  simp only [mem_cons, forall_eq_or_imp] at hvalues
  rw [unpack_eq]
  simp only [pack, foldl_cons, foldl_nil, cons.injEq, and_true]
  omega

theorem unpack_length (mod : Nat) : (unpack mod).length = CHECKSUM_SIZE := by
  rw [unpack, length_map, length_range]

theorem unpack_lt {value : Nat} (h : value ∈ unpack mod) : value < 32 := by
  obtain ⟨_, -, rfl⟩ := mem_map.mp h
  exact and_lt_two_pow _ (show 31 < 2 ^ 5 by decide)

theorem unpack_inj (ha : a < 2 ^ 30) (hb : b < 2 ^ 30) (h : unpack a = unpack b) : a = b := by
  rw [← pack_unpack ha, ← pack_unpack hb, h]

/-- The same values keep different remainders different, also after a constant is added and in
parts. -/
theorem unpack_remainder_eq_iff {constant : Nat} (ha : a < 2 ^ 30) (hb : b < 2 ^ 30)
    (hconstant : constant < 2 ^ 30) (hvalues : ∀ value ∈ values, value < 32) :
    unpack (remainder a values ^^^ constant) = unpack (remainder b values ^^^ constant) ↔
    a = b := by
  constructor
  · intro h
    have hsums := unpack_inj (xor_lt_two_pow (remainder_lt hvalues ha) hconstant)
      (xor_lt_two_pow (remainder_lt hvalues hb) hconstant) h
    have hremainders := xor_left_injective.eq_iff.mp hsums
    rw [remainder_eq a, remainder_eq b] at hremainders
    exact iterate_shiftRemainder_inj ha hb (xor_left_injective.eq_iff.mp hremainders)
  · rintro rfl
    rfl

/-- Up to six values are only packed. -/
theorem remainder_zero_eq_pack (hlength : values.length ≤ CHECKSUM_SIZE)
    (hvalues : ∀ value ∈ values, value < 32) : remainder 0 values = pack values := by
  have hloop : ∀ (rest : List Nat) (packed : Nat), packed < 32 ^ (CHECKSUM_SIZE - rest.length) →
      rest.length ≤ CHECKSUM_SIZE → (∀ value ∈ rest, value < 32) →
      remainder packed rest = rest.foldl (fun packed value => packed * 32 + value) packed := by
    intro rest
    induction rest with
    | nil => exact fun _ _ _ _ => rfl
    | cons value rest ih =>
      intro packed hpacked hrest hall
      rw [length_cons] at hpacked hrest
      have hvalue : value < 2 ^ 5 := hall value mem_cons_self
      have hsmall : packed < 2 ^ 25 := by
        have hpow : 32 ^ (CHECKSUM_SIZE - (rest.length + 1)) ≤ 32 ^ 5 :=
          Nat.pow_le_pow_right (by decide) (by rw [CHECKSUM_SIZE]; omega)
        omega
      have hadd : packed * 32 ^^^ value = packed * 32 + value := mul_two_pow_xor hvalue packed
      rw [remainder_cons, shiftRemainder_of_lt hsmall, hadd]
      apply ih
      · have hexp : CHECKSUM_SIZE - rest.length = CHECKSUM_SIZE - (rest.length + 1) + 1 := by omega
        rw [hexp]
        omega
      · omega
      · exact fun other hother => hall other (mem_cons_of_mem _ hother)
  exact hloop values 0 (Nat.pow_pos (by decide)) hlength hvalues

/-- Six values complete a list to a remainder in exactly one way. -/
theorem remainder_append_eq_iff {target : Nat} (htarget : target < 2 ^ 30) {check : List Nat}
    (hlength : check.length = CHECKSUM_SIZE) (hcheck : ∀ value ∈ check, value < 32) :
    remainder c (values ++ check) = target ↔
      check = unpack (remainder c (values ++ replicate CHECKSUM_SIZE 0) ^^^ target) := by
  have hzeros : remainder c (values ++ replicate CHECKSUM_SIZE 0) =
      shiftRemainder^[CHECKSUM_SIZE] (remainder c values) := by
    rw [remainder_append, remainder_eq]
    exact Nat.xor_zero _
  have hshifted : shiftRemainder^[CHECKSUM_SIZE] (remainder c values) < 2 ^ 30 := by
    exact shiftRemainder_lt _
  have hsum : remainder c (values ++ check) =
      shiftRemainder^[CHECKSUM_SIZE] (remainder c values) ^^^ pack check := by
    rw [remainder_append, remainder_eq, hlength, remainder_zero_eq_pack hlength.le hcheck]
  rw [hzeros, hsum]
  constructor
  · rintro rfl
    rw [← Nat.xor_assoc, Nat.xor_self, Nat.zero_xor, unpack_pack hlength hcheck]
  · intro hunpack
    rw [hunpack, pack_unpack (xor_lt_two_pow hshifted htarget), ← Nat.xor_assoc,
      Nat.xor_self, Nat.zero_xor]

end BtcSharp
