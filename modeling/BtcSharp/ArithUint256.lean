/-
# Numbers of 256 bits

`base_uint` of `arith_uint256.h` keeps a number in eight digits of 32 bits, and its operators are
loops over the digits. Each of them computes what it stands for modulo `2 ^ 256`. So what was shown
for the compact form of natural numbers holds for the one that is computed with digits.
-/

import BtcSharp.Math.Words
import BtcSharp.Pow

namespace BtcSharp

open List Math

/-- Eight digits, the least significant first. -/
structure ArithUint256 where
  pn : List (BitVec 32)
  hpn : pn.length = 8

namespace ArithUint256

def toNat (a : ArithUint256) : Nat := wordsToNat a.pn

/-! ## Operators -/

/-- The number of an `uint64_t`. -/
def ofUInt64 (b : BitVec 64) : ArithUint256 :=
  ⟨b.setWidth 32 :: (b >>> 32).setWidth 32 :: replicate 6 0, rfl⟩

def getLow64 (a : ArithUint256) : BitVec 64 :=
  (a.pn.getD 0 0).setWidth 64 ||| (a.pn.getD 1 0).setWidth 64 <<< 32

/-- `UintToArith256`. -/
def uintToArith256 (a : Uint256) : ArithUint256 :=
  ⟨(range 8).map fun x => a.extractLsb' (32 * x) 32, rfl⟩

/-- `operator<<=`: what the loop sets, in this order. -/
def shiftLeft (a : ArithUint256) (shift : Nat) : ArithUint256 :=
  ⟨orInto (replicate 8 0) ((range 8).flatMap fun i =>
    (if i + shift / 32 + 1 < 8 ∧ shift % 32 ≠ 0 then
      [(i + shift / 32 + 1, a.pn.getD i 0 >>> (32 - shift % 32))] else []) ++
    if i + shift / 32 < 8 then [(i + shift / 32, a.pn.getD i 0 <<< (shift % 32))] else []),
    by simp⟩

/-- `operator>>=`. -/
def shiftRight (a : ArithUint256) (shift : Nat) : ArithUint256 :=
  ⟨orInto (replicate 8 0) ((range 8).flatMap fun i =>
    (if shift / 32 + 1 ≤ i ∧ shift % 32 ≠ 0 then
      [(i - shift / 32 - 1, a.pn.getD i 0 <<< (32 - shift % 32))] else []) ++
    if shift / 32 ≤ i then [(i - shift / 32, a.pn.getD i 0 >>> (shift % 32))] else []),
    by simp⟩

/-- The loop of `operator+=`. -/
def addLoop : BitVec 64 → List (BitVec 32) → List (BitVec 32) → List (BitVec 32)
  | carry, x :: xs, y :: ys =>
    let n := carry + x.setWidth 64 + y.setWidth 64
    n.setWidth 32 :: addLoop (n >>> 32) xs ys
  | _, _, _ => []

/-- The loop of `operator++`, which ends at a digit that does not become zero. -/
def increment : List (BitVec 32) → List (BitVec 32)
  | [] => []
  | x :: xs => if x + 1 = 0#32 then (x + 1) :: increment xs else (x + 1) :: xs

/-- `CompareTo`, which begins with the most significant digits. -/
def compareTo : List (BitVec 32) → List (BitVec 32) → Int
  | x :: xs, y :: ys =>
    let high := compareTo xs ys
    if high ≠ 0 then high else if x < y then -1 else if y < x then 1 else 0
  | _, _ => 0

/-- The inner loop of `bits`. -/
def highBit (x : BitVec 32) : Nat → Nat
  | 0 => 1
  | nbits + 1 => if x &&& 1#32 <<< (nbits + 1) ≠ 0#32 then nbits + 2 else highBit x nbits

/-- The outer loop, from the most significant digit to that at a position. -/
def bitsFrom (pos : Nat) : List (BitVec 32) → Nat
  | [] => 0
  | x :: xs =>
    let high := bitsFrom (pos + 1) xs
    if high ≠ 0 then high else if x ≠ 0#32 then 32 * pos + highBit x 31 else 0

def bits (a : ArithUint256) : Nat := bitsFrom 0 a.pn

/-- `EqualTo`. -/
def equalTo (a : ArithUint256) (b : BitVec 64) : Bool :=
  (a.pn.drop 2).all (· == 0) && a.pn.getD 1 0 == (b >>> 32).setWidth 32 &&
    a.pn.getD 0 0 == b.setWidth 32

theorem length_addLoop {carry : BitVec 64} {xs ys : List (BitVec 32)} (h : xs.length = ys.length) :
    (addLoop carry xs ys).length = ys.length := by
  induction xs generalizing carry ys with
  | nil => cases ys with
    | nil => rfl
    | cons => cases h
  | cons x xs ih =>
    cases ys with
    | nil => cases h
    | cons y ys => exact congrArg (· + 1) (ih (Nat.succ.inj h))

theorem length_increment (xs : List (BitVec 32)) : (increment xs).length = xs.length := by
  fun_induction increment xs with
  | case1 => rfl
  | case2 x xs hzero ih => exact congrArg (· + 1) ih
  | case3 => rfl

def complement (a : ArithUint256) : ArithUint256 := ⟨a.pn.map (~~~ ·), by simp [a.hpn]⟩

/-- `operator-`. -/
def neg (a : ArithUint256) : ArithUint256 :=
  ⟨increment a.complement.pn, (length_increment _).trans a.complement.hpn⟩

def add (a b : ArithUint256) : ArithUint256 :=
  ⟨addLoop 0#64 a.pn b.pn, (length_addLoop (a.hpn.trans b.hpn.symm)).trans b.hpn⟩

def sub (a b : ArithUint256) : ArithUint256 := a.add b.neg

/-- A bit of the quotient is set. -/
def setBit (a : ArithUint256) (shift : Nat) : ArithUint256 :=
  ⟨orInto a.pn [(shift / 32, 1#32 <<< (shift % 32))], by simp [a.hpn]⟩

/-- The loop of `operator/=`, for a shift of one less than the rounds that are left. -/
def divideLoop : Nat → ArithUint256 → ArithUint256 → ArithUint256 → ArithUint256
  | 0, _, _, quotient => quotient
  | shift + 1, num, div, quotient =>
    if 0 ≤ compareTo num.pn div.pn then
      divideLoop shift (num.sub div) (div.shiftRight 1) (quotient.setBit shift)
    else divideLoop shift num (div.shiftRight 1) quotient

/-- `operator/=`, which does not divide by zero. -/
def divide (num div : ArithUint256) : Option ArithUint256 :=
  if div.bits = 0 then none
  else if num.bits < div.bits then some (ofUInt64 0#64)
  else
    let shift := num.bits - div.bits
    some (divideLoop (shift + 1) num (div.shiftLeft shift) (ofUInt64 0#64))

/-! ## Compact targets -/

def setCompact (nCompact : UInt32) : CompactTarget ArithUint256 :=
  let nSize := nCompact.toNat >>> 24
  let mantissa := nCompact.toNat &&& 0x007fffff
  let nWord := if nSize ≤ 3 then mantissa >>> (8 * (3 - nSize)) else mantissa
  let target := ofUInt64 (BitVec.ofNat 64 nWord)
  { target := if nSize ≤ 3 then target else target.shiftLeft (8 * (nSize - 3))
    fNegative := nWord ≠ 0 ∧ nCompact.toNat &&& 0x00800000 ≠ 0
    fOverflow := nWord ≠ 0 ∧
      (34 < nSize ∨ (0xff < nWord ∧ 33 < nSize) ∨ (0xffff < nWord ∧ 32 < nSize)) }

/-- `GetCompact` of a target that is not negative. -/
def getCompact (a : ArithUint256) : UInt32 :=
  let nSize := (a.bits + 7) / 8
  let nCompact :=
    (if nSize ≤ 3 then a.getLow64.toNat <<< (8 * (3 - nSize))
      else (a.shiftRight (8 * (nSize - 3))).getLow64.toNat) % 2 ^ 32
  .ofNat
    (if nCompact &&& 0x00800000 ≠ 0 then (nCompact >>> 8) ||| ((nSize + 1) <<< 24) else nCompact |||
      (nSize <<< 24))

/-- `DeriveTarget`. -/
def deriveTarget (nBits : UInt32) (pow_limit : Uint256) : Option ArithUint256 :=
  let bnTarget := setCompact nBits
  if bnTarget.fNegative ∨ bnTarget.target.equalTo 0#64 ∨ bnTarget.fOverflow ∨
    0 < compareTo bnTarget.target.pn (uintToArith256 pow_limit).pn then none
  else some bnTarget.target

/-- `GetBlockProof`. -/
def getBlockProof (nBits : UInt32) : Option ArithUint256 :=
  let bnTarget := setCompact nBits
  if bnTarget.fNegative ∨ bnTarget.fOverflow ∨ bnTarget.target.equalTo 0#64 then
    some (ofUInt64 0#64)
  else (divide bnTarget.target.complement (bnTarget.target.add (ofUInt64 1#64))).map
    fun proof => proof.add (ofUInt64 1#64)

/-! ## What they compute -/

variable {a b : ArithUint256}

theorem toNat_lt (a : ArithUint256) : a.toNat < 2 ^ 256 := by
  have h := wordsToNat_lt a.pn
  rwa [a.hpn] at h

theorem testBit_toNat (a : ArithUint256) (j : Nat) :
    a.toNat.testBit j = (a.pn.getD (j / 32) 0).getLsbD (j % 32) :=
  testBit_wordsToNat (by decide) _ _

theorem getD_of_ge (a : ArithUint256) {j : Nat} (h : 256 ≤ j) : a.pn.getD (j / 32) 0 = 0 :=
  getD_eq_default _ _ (by rw [a.hpn]; omega)

theorem toNat_ofUInt64 (b : BitVec 64) : (ofUInt64 b).toNat = b.toNat := by
  have hlt := b.isLt
  simp [ofUInt64, toNat, replicate, Nat.shiftRight_eq_div_pow]
  omega

theorem toNat_getLow64 (a : ArithUint256) : a.getLow64.toNat = a.toNat % 2 ^ 64 := by
  apply Nat.eq_of_testBit_eq
  intro j
  rw [Nat.testBit_mod_two_pow, testBit_toNat, BitVec.testBit_toNat, getLow64]
  simp only [BitVec.getLsbD_or, BitVec.getLsbD_shiftLeft, BitVec.getLsbD_setWidth]
  rcases Nat.lt_or_ge j 32 with hlow | hhigh
  · rw [Nat.div_eq_of_lt hlow, Nat.mod_eq_of_lt hlow]
    simp [hlow]
  · rcases Nat.lt_or_ge j 64 with hlow | hout
    · rw [show j / 32 = 1 by omega, show j % 32 = j - 32 by omega]
      simp [hlow, Nat.not_lt.mpr hhigh, BitVec.getLsbD_of_ge _ j hhigh]
      omega
    · simp [Nat.not_lt.mpr hout]

theorem toNat_uintToArith256 (a : Uint256) : (uintToArith256 a).toNat = a.toNat := by
  apply Nat.eq_of_testBit_eq
  intro j
  rw [testBit_toNat, BitVec.testBit_toNat]
  rcases Nat.lt_or_ge j 256 with hlt | hge
  · have hdigit : (uintToArith256 a).pn.getD (j / 32) 0 = a.extractLsb' (32 * (j / 32)) 32 := by
      rw [uintToArith256, getD_eq_getElem?_getD, getElem?_map, getElem?_range (by omega)]
      rfl
    rw [hdigit, BitVec.getLsbD_extractLsb', Nat.div_add_mod]
    simp [Nat.mod_lt]
  · rw [getD_of_ge _ hge, BitVec.getLsbD_of_ge a j hge]
    simp

/-- The bits that the loop of a shift sets. -/
theorem testBit_orInto {c d : Nat → Prop} [DecidablePred c] [DecidablePred d]
    {x y : Nat → Nat × BitVec 32} {j : Nat} (hj : j < 256) :
    (wordsToNat (orInto (replicate 8 0) ((range 8).flatMap fun i =>
      (if c i then [x i] else []) ++ if d i then [y i] else []))).testBit j = true ↔
    ∃ i < 8, c i ∧ (x i).1 = j / 32 ∧ (x i).2.getLsbD (j % 32) = true ∨
      d i ∧ (y i).1 = j / 32 ∧ (y i).2.getLsbD (j % 32) = true := by
  rw [testBit_wordsToNat (by decide), getLsbD_orInto _
    (show j / 32 < (replicate 8 (0 : BitVec 32)).length by rw [length_replicate]; omega)]
  have hzero : (replicate 8 (0 : BitVec 32)).getD (j / 32) 0 = 0 := by
    rw [getD_replicate _ (by omega)]
  rw [hzero, any_flatMap, BitVec.ofNat_eq_ofNat, BitVec.getLsbD_zero, Bool.false_or, any_eq_true]
  refine exists_congr fun i => ?_
  rw [mem_range, any_append, Bool.or_eq_true]
  refine and_congr_right fun _ => or_congr ?_ ?_
  · by_cases hc : c i <;> simp [hc]
  · by_cases hd : d i <;> simp [hd]

theorem toNat_shiftLeft (a : ArithUint256) (shift : Nat) :
    (a.shiftLeft shift).toNat = (a.toNat <<< shift) % 2 ^ 256 := by
  apply Nat.eq_of_testBit_eq
  intro j
  rw [Nat.testBit_mod_two_pow, Nat.testBit_shiftLeft, testBit_toNat a]
  rcases Nat.lt_or_ge j 256 with hj | hge
  · rw [Bool.eq_iff_iff]
    refine (testBit_orInto hj).trans ?_
    simp only [BitVec.getLsbD_ushiftRight, BitVec.getLsbD_shiftLeft, hj, decide_true,
      Bool.true_and, Bool.and_eq_true, decide_eq_true_eq, Bool.not_eq_true',
      decide_eq_false_iff_not]
    constructor
    · rintro ⟨i, -, ⟨-, hpos, hbit⟩ | ⟨-, hpos, ⟨-, hlow⟩, hbit⟩⟩
      · have hs : j % 32 < shift % 32 := by
          by_contra hcon
          rw [BitVec.getLsbD_of_ge _ _ (by omega)] at hbit
          cases hbit
        refine ⟨by omega, ?_⟩
        rwa [show (j - shift) / 32 = i by omega,
          show (j - shift) % 32 = 32 - shift % 32 + j % 32 by omega]
      · refine ⟨by omega, ?_⟩
        rwa [show (j - shift) / 32 = i by omega,
          show (j - shift) % 32 = j % 32 - shift % 32 by omega]
    · rintro ⟨hle, hbit⟩
      refine ⟨(j - shift) / 32, by omega, ?_⟩
      by_cases hs : j % 32 < shift % 32
      · left
        refine ⟨by omega, by omega, ?_⟩
        rwa [show 32 - shift % 32 + j % 32 = (j - shift) % 32 by omega]
      · right
        refine ⟨by omega, by omega, ⟨by omega, hs⟩, ?_⟩
        rwa [show j % 32 - shift % 32 = (j - shift) % 32 by omega]
  · rw [Nat.testBit_lt_two_pow ((toNat_lt _).trans_le (Nat.pow_le_pow_right (by decide) hge))]
    simp [Nat.not_lt.mpr hge]

theorem toNat_shiftRight (a : ArithUint256) (shift : Nat) :
    (a.shiftRight shift).toNat = a.toNat >>> shift := by
  apply Nat.eq_of_testBit_eq
  intro j
  rw [Nat.testBit_shiftRight, testBit_toNat a]
  rcases Nat.lt_or_ge j 256 with hj | hge
  · rw [Bool.eq_iff_iff]
    refine (testBit_orInto hj).trans ?_
    simp only [BitVec.getLsbD_ushiftRight, BitVec.getLsbD_shiftLeft, Bool.and_eq_true,
      decide_eq_true_eq, Bool.not_eq_true', decide_eq_false_iff_not]
    constructor
    · rintro ⟨i, -, ⟨hle, hpos, ⟨-, hlow⟩, hbit⟩ | ⟨hle, hpos, hbit⟩⟩
      · rwa [show (shift + j) / 32 = i by omega,
          show (shift + j) % 32 = j % 32 - (32 - shift % 32) by omega]
      · have hs : shift % 32 + j % 32 < 32 := by
          by_contra hcon
          rw [BitVec.getLsbD_of_ge _ _ (by omega)] at hbit
          cases hbit
        rwa [show (shift + j) / 32 = i by omega,
          show (shift + j) % 32 = shift % 32 + j % 32 by omega]
    · intro hbit
      have hi : (shift + j) / 32 < 8 := by
        by_contra hcon
        rw [getD_of_ge a (j := shift + j) (by omega)] at hbit
        simp at hbit
      refine ⟨(shift + j) / 32, hi, ?_⟩
      by_cases hs : shift % 32 + j % 32 < 32
      · right
        refine ⟨by omega, by omega, ?_⟩
        rwa [show shift % 32 + j % 32 = (shift + j) % 32 by omega]
      · left
        refine ⟨by omega, by omega, ⟨by omega, by omega⟩, ?_⟩
        rwa [show j % 32 - (32 - shift % 32) = (shift + j) % 32 by omega]
  · rw [Nat.testBit_lt_two_pow ((toNat_lt _).trans_le (Nat.pow_le_pow_right (by decide) hge)),
      getD_of_ge a (hge.trans (Nat.le_add_left j shift))]
    simp

/-- A carry is at most one. -/
theorem wordsToNat_addLoop {carry : BitVec 64} {xs ys : List (BitVec 32)}
    (h : xs.length = ys.length) (hcarry : carry.toNat ≤ 1) :
    wordsToNat (addLoop carry xs ys) =
      (carry.toNat + wordsToNat xs + wordsToNat ys) % 2 ^ (32 * xs.length) := by
  induction xs generalizing carry ys with
  | nil =>
    rw [length_nil, Nat.mul_zero, pow_zero, Nat.mod_one]
    rfl
  | cons x xs ih =>
    cases ys with
    | nil => cases h
    | cons y ys =>
      have hx := x.isLt
      have hy := y.isLt
      have hn : (carry + x.setWidth 64 + y.setWidth 64).toNat =
          carry.toNat + x.toNat + y.toNat := by
        simp only [BitVec.toNat_add, BitVec.toNat_setWidth]
        omega
      have hnext : ((carry + x.setWidth 64 + y.setWidth 64) >>> 32).toNat =
          (carry.toNat + x.toNat + y.toNat) / 2 ^ 32 := by
        rw [BitVec.toNat_ushiftRight, hn, Nat.shiftRight_eq_div_pow]
      have htail := @ih ((carry + x.setWidth 64 + y.setWidth 64) >>> 32) ys (Nat.succ.inj h)
        (by rw [hnext]; omega)
      rw [addLoop, wordsToNat_cons, htail, hnext, BitVec.toNat_setWidth, hn, wordsToNat_cons,
        wordsToNat_cons, length_cons, Nat.mul_succ, Nat.add_comm _ 32, pow_add, Nat.mod_mul]
      congr 1
      · omega
      · congr 2
        omega

theorem toNat_add (a b : ArithUint256) : (a.add b).toNat = (a.toNat + b.toNat) % 2 ^ 256 := by
  have h := @wordsToNat_addLoop 0#64 a.pn b.pn (a.hpn.trans b.hpn.symm) (by decide)
  rw [a.hpn, BitVec.toNat_zero, Nat.zero_add] at h
  exact h

theorem wordsToNat_complement (xs : List (BitVec 32)) :
    wordsToNat (xs.map (~~~ ·)) + wordsToNat xs + 1 = 2 ^ (32 * xs.length) := by
  induction xs with
  | nil => rfl
  | cons x xs ih =>
    have hx := x.isLt
    rw [map_cons, wordsToNat_cons, wordsToNat_cons, BitVec.toNat_not, length_cons, Nat.mul_succ,
      Nat.add_comm _ 32, pow_add, ← ih]
    omega

theorem toNat_complement (a : ArithUint256) : a.complement.toNat = 2 ^ 256 - 1 - a.toNat := by
  have h := wordsToNat_complement a.pn
  rw [a.hpn] at h
  show wordsToNat (a.pn.map (~~~ ·)) = 2 ^ 256 - 1 - wordsToNat a.pn
  omega

theorem wordsToNat_increment (xs : List (BitVec 32)) :
    wordsToNat (increment xs) = (wordsToNat xs + 1) % 2 ^ (32 * xs.length) := by
  fun_induction increment xs with
  | case1 => simp
  | case2 x xs hzero ih =>
    have hx : x.toNat = 2 ^ 32 - 1 := by bv_omega
    rw [wordsToNat_cons, wordsToNat_cons, hzero, ih, hx, length_cons, Nat.mul_succ,
      Nat.add_comm _ 32, pow_add, BitVec.toNat_zero, Nat.zero_add, ← Nat.mul_mod_mul_left]
    congr 1
    omega
  | case3 x xs hne =>
    have hx : (x + 1).toNat = x.toNat + 1 := by bv_omega
    have hlt := wordsToNat_lt ((x + 1) :: xs)
    rw [wordsToNat_cons, hx, length_cons] at hlt
    rw [wordsToNat_cons, wordsToNat_cons, hx, length_cons, Nat.mod_eq_of_lt (by omega)]
    omega

theorem toNat_sub (a b : ArithUint256) :
    (a.sub b).toNat = (a.toNat + (2 ^ 256 - b.toNat)) % 2 ^ 256 := by
  have hneg := wordsToNat_increment b.complement.pn
  have hlt := b.toNat_lt
  have hcomplement := toNat_complement b
  unfold toNat at hcomplement
  rw [b.complement.hpn, hcomplement] at hneg
  rw [sub, toNat_add, show b.neg.toNat = _ from hneg, Nat.add_mod_mod]
  unfold toNat at hlt ⊢
  congr 2
  omega

theorem compareTo_eq {xs ys : List (BitVec 32)} (h : xs.length = ys.length) :
    compareTo xs ys = if wordsToNat xs < wordsToNat ys then -1
      else if wordsToNat ys < wordsToNat xs then 1 else 0 := by
  induction xs generalizing ys with
  | nil => cases ys with
    | nil => rfl
    | cons => cases h
  | cons x xs ih =>
    cases ys with
    | nil => cases h
    | cons y ys =>
      have hx := x.isLt
      have hy := y.isLt
      rw [compareTo, ih (Nat.succ.inj h), wordsToNat_cons, wordsToNat_cons]
      simp only [BitVec.lt_def]
      split_ifs <;> omega

theorem compareTo_nonneg_iff (a b : ArithUint256) :
    0 ≤ compareTo a.pn b.pn ↔ b.toNat ≤ a.toNat := by
  rw [compareTo_eq (a.hpn.trans b.hpn.symm)]
  unfold toNat
  split_ifs <;> omega

theorem compareTo_pos_iff (a b : ArithUint256) : 0 < compareTo a.pn b.pn ↔ b.toNat < a.toNat := by
  rw [compareTo_eq (a.hpn.trans b.hpn.symm)]
  unfold toNat
  split_ifs <;> omega

theorem highBit_eq {x : BitVec 32} (hne : x ≠ 0#32) {n : Nat} (hn : n < 32)
    (hx : x.toNat < 2 ^ (n + 1)) : highBit x n = BtcSharp.bits x.toNat := by
  induction n with
  | zero =>
    have hone : x.toNat = 1 := by bv_omega
    rw [highBit, hone]
    decide
  | succ n ih =>
    have hbit : x &&& 1#32 <<< (n + 1) ≠ 0#32 ↔ 2 ^ (n + 1) ≤ x.toNat := by
      have hdiv : x.toNat / 2 ^ (n + 1) < 2 := Nat.div_lt_of_lt_mul hx
      have hpow : BitVec.twoPow 32 (n + 1) ≠ 0#32 := by
        intro hzero
        have hset := congrArg (BitVec.getLsbD · (n + 1)) hzero
        simp [hn] at hset
      have hle : 1 ≤ x.toNat / 2 ^ (n + 1) ↔ 2 ^ (n + 1) ≤ x.toNat := by
        rw [Nat.le_div_iff_mul_le (Nat.two_pow_pos _), Nat.one_mul]
      rw [show x &&& 1#32 <<< (n + 1) = _ from BitVec.and_twoPow x (n + 1),
        ← BitVec.testBit_toNat, Nat.testBit_eq_decide_div_mod_eq, ← hle]
      rcases Nat.le_one_iff_eq_zero_or_eq_one.mp (Nat.lt_succ_iff.mp hdiv) with hzero | hone
      · simp [hzero]
      · simp [hone, hpow]
    rw [highBit]
    split
    · next hset =>
      have hle := hbit.mp hset
      exact Nat.le_antisymm (lt_bits_iff.mpr hle) (bits_le_iff.mpr hx)
    · next hset => exact ih (by omega) (Nat.lt_of_not_le fun hle => hset (hbit.mpr hle))

/-- The bits of a number above its least digit. -/
theorem bits_add_mul {x V : Nat} (hx : x < 2 ^ 32) (hV : V ≠ 0) :
    BtcSharp.bits (x + 2 ^ 32 * V) = 32 + BtcSharp.bits V := by
  have hpos : 0 < BtcSharp.bits V := lt_bits_iff.mpr (Nat.one_le_iff_ne_zero.mpr hV)
  have hlow : 2 ^ (BtcSharp.bits V - 1) ≤ V := lt_bits_iff.mp (by omega)
  have hhigh : V < 2 ^ BtcSharp.bits V := bits_le_iff.mp (le_refl _)
  apply Nat.le_antisymm
  · rw [bits_le_iff, pow_add]
    calc x + 2 ^ 32 * V < 2 ^ 32 * (V + 1) := by omega
      _ ≤ _ := Nat.mul_le_mul_left _ hhigh
  · have h : 32 + (BtcSharp.bits V - 1) < BtcSharp.bits (x + 2 ^ 32 * V) := by
      rw [lt_bits_iff, pow_add]
      exact (Nat.mul_le_mul_left _ hlow).trans (Nat.le_add_left _ _)
    omega

theorem bitsFrom_eq (pos : Nat) (xs : List (BitVec 32)) : bitsFrom pos xs =
    if wordsToNat xs = 0 then 0 else 32 * pos + BtcSharp.bits (wordsToNat xs) := by
  induction xs generalizing pos with
  | nil => rfl
  | cons x xs ih =>
    rw [bitsFrom, ih, wordsToNat_cons]
    by_cases hzero : wordsToNat xs = 0
    · rw [hzero, if_pos rfl, Nat.mul_zero, Nat.add_zero]
      by_cases hx : x = 0#32
      · simp [hx]
      · have hx' : x.toNat ≠ 0 := fun h => hx (BitVec.eq_of_toNat_eq h)
        simp [hx, hx', highBit_eq hx (by decide : 31 < 32) x.isLt]
    · rw [if_neg hzero, bits_add_mul x.isLt hzero]
      have hpos : x.toNat + 2 ^ 32 * wordsToNat xs ≠ 0 := by omega
      rw [if_pos (by omega), if_neg hpos]
      omega

theorem bits_eq (a : ArithUint256) : a.bits = BtcSharp.bits a.toNat := by
  rw [bits, bitsFrom_eq]
  unfold toNat
  split
  · next hzero => rw [hzero]; rfl
  · omega

theorem toNat_setBit (a : ArithUint256) {shift : Nat} (hshift : shift < 256) :
    (a.setBit shift).toNat = a.toNat ||| 1 <<< shift := by
  apply Nat.eq_of_testBit_eq
  intro j
  rw [Nat.testBit_or, testBit_toNat, testBit_toNat, Nat.one_shiftLeft, Nat.testBit_two_pow]
  rcases Nat.lt_or_ge j 256 with hj | hge
  · rw [setBit, getLsbD_orInto _ (by rw [a.hpn]; omega), any_cons, any_nil, Bool.or_false,
      BitVec.getLsbD_shiftLeft, BitVec.getLsbD_one]
    congr 1
    rw [Bool.eq_iff_iff]
    simp only [Bool.and_eq_true, beq_iff_eq, decide_eq_true_eq, Bool.not_eq_true',
      decide_eq_false_iff_not]
    omega
  · rw [getD_of_ge _ hge, getD_of_ge _ hge]
    simp
    omega

theorem toNat_divideLoop {rounds : Nat} (hrounds : rounds ≤ 256) (num div quotient : ArithUint256) :
    (divideLoop rounds num div quotient).toNat =
      BtcSharp.divideLoop rounds num.toNat div.toNat quotient.toNat := by
  induction rounds generalizing num div quotient with
  | zero => rfl
  | succ shift ih =>
    rw [divideLoop, BtcSharp.divideLoop]
    by_cases hle : div.toNat ≤ num.toNat
    · have hnum := num.toNat_lt
      have hsub : (num.sub div).toNat = num.toNat - div.toNat := by
        rw [toNat_sub]
        omega
      rw [if_pos ((compareTo_nonneg_iff num div).mpr hle), if_pos hle, ih (by omega), hsub,
        toNat_shiftRight, toNat_setBit quotient (by omega)]
    · rw [if_neg fun h => hle ((compareTo_nonneg_iff num div).mp h), if_neg hle, ih (by omega),
        toNat_shiftRight]

/-- Division of digits is division of numbers. -/
theorem toNat_divide (num div : ArithUint256) :
    (num.divide div).map toNat = BtcSharp.divide num.toNat div.toNat := by
  have hbits : BtcSharp.bits num.toNat ≤ 256 := bits_le_iff.mpr num.toNat_lt
  rw [divide, BtcSharp.divide, bits_eq, bits_eq]
  split
  · rfl
  split
  · rfl
  · rw [Option.map_some, toNat_divideLoop (by omega), toNat_shiftLeft]
    rfl

theorem equalTo_zero_iff (a : ArithUint256) : a.equalTo 0#64 = true ↔ a.toNat = 0 := by
  obtain ⟨pn, hpn⟩ := a
  match pn, hpn with
  | x :: y :: rest, _ =>
    have hrest := @wordsToNat_eq_zero_iff 32 (x :: y :: rest)
    rw [toNat, hrest, forall_mem_cons, forall_mem_cons]
    simp [equalTo]
    tauto

theorem toNat_inj {a b : ArithUint256} (h : a.toNat = b.toNat) : a = b := by
  obtain ⟨xs, hxs⟩ := a
  obtain ⟨ys, hys⟩ := b
  have hlt : ∀ words : List (BitVec 32), ∀ digit ∈ words.map BitVec.toNat, digit < 2 ^ 32 := by
    intro words digit hdigit
    obtain ⟨word, -, rfl⟩ := mem_map.mp hdigit
    exact word.isLt
  have hdigits := Nat.ofDigits_inj_of_len_eq (by decide) (by simp [hxs, hys]) (hlt xs) (hlt ys) h
  congr 1
  exact map_injective_iff.mpr (fun _ _ => BitVec.eq_of_toNat_eq) hdigits

theorem toNat_setCompact (nCompact : UInt32) :
    (setCompact nCompact).target.toNat = (BtcSharp.setCompact nCompact).target := by
  have hmantissa : nCompact.toNat &&& 0x007fffff < 2 ^ 64 :=
    (Nat.and_lt_two_pow _ (by decide : 0x007fffff < 2 ^ 23)).trans (by decide)
  unfold setCompact BtcSharp.setCompact
  dsimp only
  split
  · rw [toNat_ofUInt64, BitVec.toNat_ofNat,
      Nat.mod_eq_of_lt ((Nat.shiftRight_le _ _).trans_lt hmantissa)]
  · rw [toNat_shiftLeft, toNat_ofUInt64, BitVec.toNat_ofNat, Nat.mod_eq_of_lt hmantissa]

theorem getCompact_eq (a : ArithUint256) : a.getCompact = BtcSharp.getCompact a.toNat := by
  unfold getCompact BtcSharp.getCompact
  dsimp only
  rw [bits_eq, toNat_getLow64, toNat_getLow64, toNat_shiftRight]

theorem toNat_deriveTarget (nBits : UInt32) (pow_limit : Uint256) :
    (deriveTarget nBits pow_limit).map toNat = BtcSharp.deriveTarget nBits pow_limit := by
  unfold deriveTarget BtcSharp.deriveTarget
  dsimp only
  rw [apply_ite (Option.map toNat), Option.map_none, Option.map_some, toNat_setCompact]
  simp only [equalTo_zero_iff, compareTo_pos_iff, toNat_uintToArith256, toNat_setCompact]
  rfl

theorem toNat_getBlockProof (nBits : UInt32) :
    (getBlockProof nBits).map toNat = BtcSharp.getBlockProof nBits := by
  unfold getBlockProof BtcSharp.getBlockProof
  dsimp only
  have hdivide := toNat_divide (setCompact nBits).target.complement
    ((setCompact nBits).target.add (ofUInt64 1#64))
  rw [toNat_complement, toNat_add, toNat_setCompact, toNat_ofUInt64] at hdivide
  have hadd : (toNat ∘ fun proof => proof.add (ofUInt64 1#64)) =
      (fun proof => (proof + 1) % 2 ^ 256) ∘ toNat := by
    funext proof
    exact (toNat_add proof _).trans (by rw [toNat_ofUInt64]; rfl)
  rw [apply_ite (Option.map toNat), Option.map_map, hadd, ← Option.map_map, hdivide]
  simp only [equalTo_zero_iff, toNat_setCompact]
  rfl

/-- Compact targets are exact. A target is rounded down to the nearest one that has a compact form,
which is neither negative nor too large, and this is monotone. A target that was derived from a
compact form keeps its value, and the work of a block with it is the number of hashes that are tried
on average. -/
theorem compact_targets_exact :
    (∀ x : ArithUint256, (setCompact x.getCompact).fNegative = false ∧
      (setCompact x.getCompact).fOverflow = false ∧
      (setCompact x.getCompact).target.toNat ≤ x.toNat ∧
      ∀ nCompact, (setCompact nCompact).fNegative = false →
        (setCompact nCompact).target.toNat ≤ x.toNat →
        (setCompact nCompact).target.toNat ≤ (setCompact x.getCompact).target.toNat) ∧
    (∀ x y : ArithUint256, x.toNat ≤ y.toNat → x.getCompact ≤ y.getCompact) ∧
    ∀ nCompact pow_limit, (deriveTarget nCompact pow_limit).isSome →
      setCompact (setCompact nCompact).target.getCompact = setCompact nCompact ∧
        (getBlockProof nCompact).map toNat =
          some (2 ^ 256 / ((setCompact nCompact).target.toNat + 1)) := by
  refine ⟨fun x => ?_, fun x y h => ?_, fun nCompact pow_limit h => ?_⟩
  · obtain ⟨hnegative, hoverflow⟩ := flags_getCompact x.toNat_lt
    obtain ⟨hle, hnearest⟩ := getCompact_rounds x.toNat_lt
    rw [getCompact_eq, toNat_setCompact]
    refine ⟨hnegative, hoverflow, hle, fun nCompact _ hless => ?_⟩
    rw [toNat_setCompact] at hless ⊢
    exact hnearest nCompact hless
  · rw [getCompact_eq, getCompact_eq]
    exact getCompact_mono h y.toNat_lt
  · have hderived : (BtcSharp.deriveTarget nCompact pow_limit).isSome := by
      rw [← toNat_deriveTarget, Option.isSome_map]
      exact h
    obtain ⟨hnegative, -, hoverflow, hle⟩ := derived_target hderived
    have hlt := hle.trans_lt pow_limit.isLt
    rw [toNat_getBlockProof, getBlockProof_of_derived hderived, toNat_setCompact, getCompact_eq,
      toNat_setCompact]
    refine ⟨?_, rfl⟩
    obtain ⟨hnegative', hoverflow'⟩ := flags_getCompact hlt
    have htarget : (setCompact (BtcSharp.getCompact (BtcSharp.setCompact nCompact).target)).target =
        (setCompact nCompact).target := by
      apply toNat_inj
      rw [toNat_setCompact, toNat_setCompact]
      exact target_of_derived hderived
    exact CompactTarget.ext htarget (hnegative'.trans hnegative.symm)
      (hoverflow'.trans hoverflow.symm)

/-- The target of the first block, which took about `2 ^ 32` hashes. -/
theorem compact_targets_exact_genesis :
    (deriveTarget 0x1d00ffff (BitVec.ofNat 256 (2 ^ 224 - 1))).isSome ∧
    (getBlockProof 0x1d00ffff).map toNat = some 4295032833 := by
  have hderived : (deriveTarget 0x1d00ffff (BitVec.ofNat 256 (2 ^ 224 - 1))).isSome := by decide
  have hproof := (compact_targets_exact.2.2 0x1d00ffff _ hderived).2
  have hwork : 2 ^ 256 / ((setCompact 0x1d00ffff).target.toNat + 1) = 4295032833 := by decide
  exact ⟨hderived, hwork ▸ hproof⟩

end ArithUint256

end BtcSharp
