/-
# The field of the values

The 32 values are a field: exclusive or is the addition, and the products are those of polynomials
modulo x^5 + x^3 + 1. It acts on remainders, value by value, and a round of the checksum respects
this.

The definitions use the operations on natural numbers by name, so that the kernel computes them
fast.
-/

import BtcSharp.Bech32.Checksum

namespace BtcSharp

open Math Nat XorLinear

/-- The highest bits of all values of a remainder. -/
def highestBits (v : Nat) : Nat := Nat.land (Nat.shiftRight v 4) 0x2108421

/-- All values times x. -/
def timesX (v : Nat) : Nat :=
  Nat.xor (Nat.shiftLeft (Nat.land v 0x1ef7bdef) 1)
    (Nat.xor (highestBits v) (Nat.shiftLeft (highestBits v) 3))

/-- All values times a bit. -/
def timesBit (a i v : Nat) : Nat := Nat.mul (Nat.land (Nat.shiftRight a i) 1) v

/-- All values times a value. -/
def scale (a v : Nat) : Nat :=
  Nat.xor (timesBit a 0 v) (timesX (Nat.xor (timesBit a 1 v) (timesX (Nat.xor (timesBit a 2 v)
    (timesX (Nat.xor (timesBit a 3 v) (timesX (timesBit a 4 v))))))))

/-- The inverses, from a table with five bits for each. -/
def inverse (a : Nat) : Nat :=
  Nat.land (Nat.shiftRight 723946236628316331581512658109933854676017238048 (Nat.mul 5 a)) 31

/-- One of the values. -/
def limb (k v : Nat) : Nat := Nat.land (Nat.shiftRight v (Nat.mul 5 k)) 31

/-- The position of the highest of five values that is not zero. -/
def lead (v : Nat) : Nat :=
  bif Nat.beq (limb 4 v) 0 then
    bif Nat.beq (limb 3 v) 0 then
      bif Nat.beq (limb 2 v) 0 then
        bif Nat.beq (limb 1 v) 0 then 0 else 1
      else 2
    else 3
  else 4

/-- The multiple whose highest value is one. -/
def normalize (v : Nat) : Nat := scale (inverse (limb (lead v) v)) v

/-- The sum with the multiple of a pivot that makes one of the values zero. -/
def eliminate (k pivot w : Nat) : Nat := Nat.xor w (scale (limb k w) pivot)

/-! ## Linearity -/

theorem timesX_linear : XorLinear timesX := by
  have hhighest := (XorLinear.and 0x2108421).comp (.shiftRight 4)
  exact ((XorLinear.shiftLeft 1).comp (.and 0x1ef7bdef)).xor
    (hhighest.xor ((XorLinear.shiftLeft 3).comp hhighest))

theorem timesBit_eq (a i v : Nat) : timesBit a i v = if a.testBit i then v else 0 := by
  have hbit : timesBit a i v = a / 2 ^ i % 2 * v := by
    show ((a >>> i) &&& 1) * v = _
    rw [and_one_is_mod, shiftRight_eq_div_pow]
  rw [hbit, testBit_eq_decide_div_mod_eq]
  rcases mod_two_eq_zero_or_one (a / 2 ^ i) with h | h <;> simp [h]

theorem timesBit_linear_left (i v : Nat) : XorLinear fun a => timesBit a i v := by
  intro a b
  simp only [timesBit_eq]
  exact select i v a b

theorem timesBit_linear_right (a i : Nat) : XorLinear (timesBit a i) := by
  intro v w
  simp only [timesBit_eq]
  exact ite_const _ v w

theorem scale_linear_left (v : Nat) : XorLinear fun a => scale a v :=
  (timesBit_linear_left 0 v).xor (timesX_linear.comp ((timesBit_linear_left 1 v).xor
    (timesX_linear.comp
      ((timesBit_linear_left 2 v).xor (timesX_linear.comp ((timesBit_linear_left 3 v).xor
      (timesX_linear.comp (timesBit_linear_left 4 v))))))))

theorem scale_linear_right (a : Nat) : XorLinear (scale a) :=
  (timesBit_linear_right a 0).xor (timesX_linear.comp ((timesBit_linear_right a 1).xor
    (timesX_linear.comp
      ((timesBit_linear_right a 2).xor (timesX_linear.comp ((timesBit_linear_right a 3).xor
      (timesX_linear.comp (timesBit_linear_right a 4))))))))

@[simp] theorem scale_zero (a : Nat) : scale a 0 = 0 := (scale_linear_right a).map_zero

@[simp] theorem zero_scale (v : Nat) : scale 0 v = 0 := (scale_linear_left v).map_zero

theorem limb_linear (k : Nat) : XorLinear (limb k) := (XorLinear.and 31).comp (.shiftRight _)

theorem limb_lt (k v : Nat) : limb k v < 32 := and_lt_two_pow _ (show 31 < 2 ^ 5 by decide)

theorem inverse_lt (a : Nat) : inverse a < 32 := and_lt_two_pow _ (show 31 < 2 ^ 5 by decide)

theorem eliminate_linear (k pivot : Nat) : XorLinear (eliminate k pivot) :=
  XorLinear.id.xor ((scale_linear_left pivot).comp (limb_linear k))

/-! ## The action on remainders

Each law is linear in its arguments, so the powers of two are enough. -/

variable {a v k : Nat}

/-- It is enough that a linear map respects the action on powers. -/
theorem respects_scale {f : Nat → Nat} (hf : XorLinear f)
    (hpowers : ∀ i < 5, ∀ j < 30, f (scale (2 ^ i) (2 ^ j)) = scale (2 ^ i) (f (2 ^ j)))
    (ha : a < 32) (hv : v < 2 ^ 30) : f (scale a v) = scale a (f v) :=
  ext₂ (fun v => hf.comp (scale_linear_left v)) (fun a => hf.comp (scale_linear_right a))
    (fun v => scale_linear_left (f v)) (fun a => (scale_linear_right a).comp hf) hpowers a ha v hv

/-- A round respects the action. -/
theorem shiftRemainder_scale (ha : a < 32) (hv : v < 2 ^ 30) :
    shiftRemainder (scale a v) = scale a (shiftRemainder v) :=
  respects_scale shiftRemainder_linear (by decide) ha hv

theorem scale_shiftRight_five (ha : a < 32) (hv : v < 2 ^ 30) :
    scale a v >>> 5 = scale a (v >>> 5) :=
  respects_scale (.shiftRight 5) (by decide) ha hv

theorem scale_and (ha : a < 32) (hv : v < 2 ^ 30) : scale a v &&& 31 = scale a (v &&& 31) :=
  respects_scale (.and 31) (by decide) ha hv

/-- The products are associative. -/
theorem scale_scale {b : Nat} (ha : a < 32) (hb : b < 32) (hv : v < 2 ^ 25) :
    scale a (scale b v) = scale (scale a b) v := by
  have hpowers : ∀ i < 5, ∀ j < 5, ∀ k < 25,
      scale (2 ^ i) (scale (2 ^ j) (2 ^ k)) = scale (scale (2 ^ i) (2 ^ j)) (2 ^ k) := by decide
  have hleft : ∀ i < 5, scale (2 ^ i) (scale b v) = scale (scale (2 ^ i) b) v := by
    intro i hi
    exact ext₂ (fun v => (scale_linear_right (2 ^ i)).comp (scale_linear_left v))
      (fun b => (scale_linear_right (2 ^ i)).comp (scale_linear_right b))
      (fun v => (scale_linear_left v).comp (scale_linear_right (2 ^ i)))
      (fun b => scale_linear_right (scale (2 ^ i) b)) (hpowers i hi) b hb v hv
  exact ext (scale_linear_left (scale b v))
    ((scale_linear_left v).comp (scale_linear_left b)) hleft a ha

theorem one_scale (hv : v < 2 ^ 25) : scale 1 v = v := by
  have hpowers : ∀ j < 25, scale 1 (2 ^ j) = 2 ^ j := by decide
  exact ext (scale_linear_right 1) .id hpowers v hv

section

variable (ha : a < 32)

include ha

theorem scale_one : scale a 1 = a := by
  have hpowers : ∀ i < 5, scale (2 ^ i) 1 = 2 ^ i := by decide
  exact ext (scale_linear_left 1) .id hpowers a ha

/-- The action keeps the number of values. -/
theorem scale_shiftRight (hv : v < 2 ^ 30) (k : Nat) :
    scale a v >>> (5 * k) = scale a (v >>> (5 * k)) := by
  induction k with
  | zero => rfl
  | succ k ih =>
    have hle : v >>> (5 * k) ≤ v := shiftRight_le v _
    rw [mul_succ, shiftRight_add, shiftRight_add, ih, scale_shiftRight_five ha (by omega)]

theorem scale_lt (hk : k ≤ 6) (hv : v < 2 ^ (5 * k)) : scale a v < 2 ^ (5 * k) := by
  have hle : 2 ^ (5 * k) ≤ 2 ^ 30 := Nat.pow_le_pow_right (by decide) (by omega)
  have hzero : v >>> (5 * k) = 0 := by
    rw [shiftRight_eq_div_pow]
    exact div_eq_of_lt hv
  have hshift := scale_shiftRight ha (lt_of_lt_of_le hv hle) k
  rw [hzero, scale_zero, shiftRight_eq_div_pow] at hshift
  exact lt_of_div_eq_zero (Nat.two_pow_pos _) hshift

theorem limb_scale (hv : v < 2 ^ 30) (k : Nat) : limb k (scale a v) = scale a (limb k v) := by
  have hle : v >>> (5 * k) ≤ v := shiftRight_le v _
  have hand := scale_and ha (lt_of_le_of_lt hle hv)
  rw [← scale_shiftRight ha hv] at hand
  exact hand

/-! ## Inverses -/

variable (hne : a ≠ 0)

include hne

theorem inverse_scale : scale (inverse a) a = 1 := by
  have hall : ∀ a < 32, a ≠ 0 → scale (inverse a) a = 1 := by decide
  exact hall a ha hne

theorem scale_inverse : scale a (inverse a) = 1 := by
  have hall : ∀ a < 32, a ≠ 0 → scale a (inverse a) = 1 := by decide
  exact hall a ha hne

theorem inverse_scale_scale (hv : v < 2 ^ 25) : scale (inverse a) (scale a v) = v := by
  rw [scale_scale (inverse_lt a) ha hv, inverse_scale ha hne, one_scale hv]

theorem scale_eq_zero_iff (hv : v < 2 ^ 25) : scale a v = 0 ↔ v = 0 := by
  constructor
  · intro h
    rw [← inverse_scale_scale ha hne hv, h, scale_zero]
  · rintro rfl
    exact scale_zero a

/-! ## Multiples -/

theorem lead_scale (hv : v < 2 ^ 25) : lead (scale a v) = lead v := by
  have hbeq : ∀ k, beq (limb k (scale a v)) 0 = beq (limb k v) 0 := by
    intro k
    have hlimb := limb_lt k v
    rw [limb_scale ha (by omega), Bool.eq_iff_iff, beq_eq, beq_eq,
      scale_eq_zero_iff ha hne (by omega)]
  rw [lead, lead, hbeq, hbeq, hbeq, hbeq]

end

theorem limb_lead_ne_zero (hv : v < 2 ^ 25) (hne : v ≠ 0) : limb (lead v) v ≠ 0 := by
  have hlimb : ∀ k, limb k v = v / 2 ^ (5 * k) % 32 := by
    intro k
    show (v >>> (5 * k)) &&& 31 = _
    rw [shiftRight_eq_div_pow, show (31 : Nat) = 2 ^ 5 - 1 by decide, and_two_pow_sub_one_eq_mod]
  have hsome : limb 4 v ≠ 0 ∨ limb 3 v ≠ 0 ∨ limb 2 v ≠ 0 ∨ limb 1 v ≠ 0 ∨ limb 0 v ≠ 0 := by
    rw [hlimb, hlimb, hlimb, hlimb, hlimb]
    omega
  rw [lead]
  cases h4 : beq (limb 4 v) 0 with
  | false => exact ne_of_beq_eq_false h4
  | true =>
  cases h3 : beq (limb 3 v) 0 with
  | false => exact ne_of_beq_eq_false h3
  | true =>
  cases h2 : beq (limb 2 v) 0 with
  | false => exact ne_of_beq_eq_false h2
  | true =>
  cases h1 : beq (limb 1 v) 0 with
  | false => exact ne_of_beq_eq_false h1
  | true =>
    rw [beq_eq] at h4 h3 h2 h1
    simpa [h4, h3, h2, h1] using hsome

/-- Multiples have the same normal form. -/
theorem normalize_scale (ha : a < 32) (hne : a ≠ 0) (hv : v < 2 ^ 25) :
    normalize (scale a v) = normalize v := by
  have hall : ∀ a < 32, a ≠ 0 → ∀ t < 32, scale (inverse (scale a t)) a = inverse t := by decide
  rw [normalize, normalize, lead_scale ha hne hv, limb_scale ha (by omega),
    scale_scale (inverse_lt _) ha hv, hall a ha hne _ (limb_lt _ v)]

theorem normalize_lt (hv : v < 2 ^ 25) : normalize v < 2 ^ 25 :=
  scale_lt (inverse_lt _) (show 5 ≤ 6 by decide) hv

theorem eliminate_lt {pivot w : Nat} (hpivot : pivot < 2 ^ 25) (hw : w < 2 ^ 25) :
    eliminate k pivot w < 2 ^ 25 :=
  xor_lt_two_pow hw (scale_lt (limb_lt k w) (show 5 ≤ 6 by decide) hpivot)

theorem eliminate_scale {pivot w : Nat} (ha : a < 32) (hpivot : pivot < 2 ^ 25) (hw : w < 2 ^ 25) :
    eliminate k pivot (scale a w) = scale a (eliminate k pivot w) := by
  show scale a w ^^^ scale (limb k (scale a w)) pivot = scale a (w ^^^ scale (limb k w) pivot)
  rw [limb_scale ha (by omega), ← scale_scale ha (limb_lt k w) hpivot, scale_linear_right]

/-- The pivot's own multiples are eliminated. -/
theorem eliminate_self (hv : v < 2 ^ 25) (hne : v ≠ 0) :
    eliminate (lead v) (normalize v) v = 0 := by
  have hlimb := limb_lt (lead v) v
  show v ^^^ scale (limb (lead v) v) (scale (inverse (limb (lead v) v)) v) = 0
  rw [scale_scale hlimb (inverse_lt _) hv,
    scale_inverse hlimb (limb_lead_ne_zero hv hne), one_scale hv, Nat.xor_self]

end BtcSharp
