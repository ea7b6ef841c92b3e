/-
# Numbers in words

A number is a list of words of one width, the least significant first. A loop over the words is
followed by the bits of the number where it moves bits, and by its digits where it carries.
-/

import Mathlib.Data.Nat.Digits.Lemmas

namespace BtcSharp.Math

open List

variable {w : Nat} {words : List (BitVec w)}

/-- The number that words stand for. -/
def wordsToNat (words : List (BitVec w)) : Nat := Nat.ofDigits (2 ^ w) (words.map BitVec.toNat)

@[simp]
theorem wordsToNat_nil : wordsToNat ([] : List (BitVec w)) = 0 := rfl

@[simp]
theorem wordsToNat_cons (word : BitVec w) (words : List (BitVec w)) :
    wordsToNat (word :: words) = word.toNat + 2 ^ w * wordsToNat words := by
  simp [wordsToNat, Nat.ofDigits_cons]

theorem wordsToNat_lt (words : List (BitVec w)) : wordsToNat words < 2 ^ (w * words.length) := by
  induction words with
  | nil => simp
  | cons word words ih =>
    rw [wordsToNat_cons, length_cons, Nat.mul_succ, Nat.add_comm _ w, pow_add]
    calc word.toNat + 2 ^ w * wordsToNat words < 2 ^ w * (wordsToNat words + 1) := by
          rw [Nat.mul_succ, Nat.add_comm]
          exact Nat.add_lt_add_left word.isLt _
      _ ≤ _ := Nat.mul_le_mul_left _ ih

theorem wordsToNat_eq_zero_iff : wordsToNat words = 0 ↔ ∀ word ∈ words, word = 0 := by
  induction words with
  | nil => simp
  | cons word words ih =>
    rw [wordsToNat_cons, Nat.add_eq_zero_iff, Nat.mul_eq_zero, ih, forall_mem_cons]
    refine and_congr (BitVec.toNat_eq (y := 0#w)).symm ?_
    simp

/-- The bits of a number are those of its words. -/
theorem testBit_wordsToNat (hw : 0 < w) (words : List (BitVec w)) (j : Nat) :
    (wordsToNat words).testBit j = (words.getD (j / w) 0).getLsbD (j % w) := by
  induction words generalizing j with
  | nil => simp
  | cons word words ih =>
    rw [wordsToNat_cons, Nat.add_comm, Nat.testBit_two_pow_mul_add _ word.isLt]
    split
    · next hlow =>
      rw [Nat.div_eq_of_lt hlow, Nat.mod_eq_of_lt hlow, getD_cons_zero, BitVec.testBit_toNat]
    · next hhigh =>
      have hle := Nat.le_of_not_lt hhigh
      rw [ih, Nat.div_eq_sub_div hw hle, Nat.mod_eq_sub_mod hle, getD_cons_succ]

/-- Bits are set in some words, one after another. -/
def orInto (words : List (BitVec w)) (changes : List (Nat × BitVec w)) : List (BitVec w) :=
  changes.foldl (fun words change => words.modify change.1 (· ||| change.2)) words

@[simp]
theorem length_orInto (changes : List (Nat × BitVec w)) :
    (orInto words changes).length = words.length := by
  induction changes generalizing words with
  | nil => rfl
  | cons change changes ih => exact ih.trans (length_modify ..)

theorem getLsbD_orInto (changes : List (Nat × BitVec w)) {q : Nat} (hq : q < words.length)
    (r : Nat) : ((orInto words changes).getD q 0).getLsbD r =
      ((words.getD q 0).getLsbD r || changes.any fun change =>
        change.1 == q && change.2.getLsbD r) := by
  induction changes generalizing words with
  | nil => simp [orInto]
  | cons change changes ih =>
    have hstep := @ih (words.modify change.1 (· ||| change.2)) (by rwa [length_modify])
    rw [any_cons, ← Bool.or_assoc]
    refine hstep.trans (congrArg (· || _) ?_)
    rw [getD_eq_getElem?_getD, getD_eq_getElem?_getD, getElem?_modify,
      getElem?_eq_getElem hq]
    by_cases heq : change.1 = q
    · simp [heq]
    · simp [heq]

end BtcSharp.Math
