/-
# Linear maps on bits

Functions of natural numbers that respect exclusive or bit by bit are the linear maps over the field
with two elements. They are determined on the numbers of a width by their values at the powers of
two.
-/

import Mathlib.Data.Nat.Bitwise

namespace BtcSharp.Math

open Function Nat

/-- Numbers without common bits. -/
theorem mul_two_pow_xor {n v : Nat} (hv : v < 2 ^ n) (a : Nat) :
    a * 2 ^ n ^^^ v = a * 2 ^ n + v := by
  have hpos := Nat.two_pow_pos n
  have hdiv : (a * 2 ^ n ^^^ v) / 2 ^ n = a := by
    rw [xor_div_two_pow, Nat.mul_div_cancel a hpos, div_eq_of_lt hv, xor_zero]
  have hmod : (a * 2 ^ n ^^^ v) % 2 ^ n = v := by
    rw [xor_mod_two_pow, mul_mod_left, mod_eq_of_lt hv, zero_xor]
  rw [← div_add_mod' (a * 2 ^ n ^^^ v) (2 ^ n), hdiv, hmod]

/-- Respects exclusive or. -/
def XorLinear (f : Nat → Nat) : Prop := ∀ a b, f (a ^^^ b) = f a ^^^ f b

namespace XorLinear

variable {f g : Nat → Nat}

theorem map_zero (hf : XorLinear f) : f 0 = 0 := by
  have h := hf 0 0
  rw [Nat.xor_self, Nat.xor_self] at h
  exact h

protected theorem id : XorLinear fun a => a := fun _ _ => rfl

theorem comp (hf : XorLinear f) (hg : XorLinear g) : XorLinear fun a => f (g a) := by
  intro a b
  dsimp only
  rw [hg, hf]

theorem iterate (hf : XorLinear f) (n : Nat) : XorLinear f^[n] := by
  induction n with
  | zero => exact .id
  | succ n ih =>
    intro a b
    rw [iterate_succ_apply, iterate_succ_apply, iterate_succ_apply, hf, ih]

protected theorem xor (hf : XorLinear f) (hg : XorLinear g) : XorLinear fun a => f a ^^^ g a := by
  intro a b
  dsimp only
  rw [hf, hg]
  ac_rfl

theorem shiftLeft (n : Nat) : XorLinear fun a => a <<< n := fun _ _ => shiftLeft_xor_distrib

theorem shiftRight (n : Nat) : XorLinear fun a => a >>> n := fun _ _ => shiftRight_xor_distrib

theorem and (mask : Nat) : XorLinear fun a => a &&& mask := fun _ _ => and_xor_distrib_right

/-- A value for a set bit. -/
theorem select (i value : Nat) : XorLinear fun a => if a.testBit i then value else 0 := by
  intro a b
  dsimp only
  rw [testBit_xor]
  cases a.testBit i <;> cases b.testBit i <;> simp

/-- Linear maps that agree at the powers of two agree. The highest bit is split off. -/
theorem ext (hf : XorLinear f) (hg : XorLinear g) {n : Nat} (h : ∀ i < n, f (2 ^ i) = g (2 ^ i)) :
    ∀ v < 2 ^ n, f v = g v := by
  induction n with
  | zero =>
    intro v hv
    obtain rfl : v = 0 := by omega
    rw [hf.map_zero, hg.map_zero]
  | succ n ih =>
    intro v hv
    have hrest := ih fun i hi => h i (lt_succ_of_lt hi)
    by_cases hlow : v < 2 ^ n
    · exact hrest v hlow
    obtain ⟨low, rfl⟩ := Nat.exists_eq_add_of_le (Nat.le_of_not_lt hlow)
    have hlt : low < 2 ^ n := by omega
    have hxor := mul_two_pow_xor hlt 1
    rw [Nat.one_mul] at hxor
    rw [← hxor, hf, hg, h n (lt_succ_self n), hrest low hlt]

/-- The same for maps of two numbers that are linear in each. -/
theorem ext₂ {f g : Nat → Nat → Nat} (hf : ∀ v, XorLinear fun a => f a v)
    (hf' : ∀ a, XorLinear (f a))
    (hg : ∀ v, XorLinear fun a => g a v) (hg' : ∀ a, XorLinear (g a)) {m n : Nat}
    (h : ∀ i < m, ∀ j < n, f (2 ^ i) (2 ^ j) = g (2 ^ i) (2 ^ j)) :
    ∀ a < 2 ^ m, ∀ v < 2 ^ n, f a v = g a v := by
  intro a ha v hv
  apply ext (hf v) (hg v) _ a ha
  intro i hi
  exact ext (hf' _) (hg' _) (h i hi) v hv

/-- A value or nothing. -/
theorem ite_const (b : Bool) : XorLinear fun a => if b then a else 0 := by
  intro v w
  cases b <;> simp

end XorLinear

end BtcSharp.Math
