/-
# The distance of the code

Strings of at most 90 characters that are accepted with the same encoding differ in at least five
characters after the separator.

The difference of two checked lists of values is a sum of multiples of the powers x, x^2, ... modulo
the generator. Shifted such that it ends with a value that is not zero, its other values belong to
the first 87 powers, of which no three are dependent: the multiples of each are eliminated from the
later ones, and what remains of these has different normal forms. This is computed, everything else
is linear algebra.
-/

import BtcSharp.Bech32.RoundTrip
import BtcSharp.Bech32.Scaling

namespace BtcSharp

open Function List Math

/-! ## The check -/

/-- Numbers that are not zero and have different residues, also from the residues seen before. -/
def separated : List Nat → (seen : Nat) → Bool
  | [], _ => true
  | c :: cs, seen =>
    !Nat.beq c 0 && Nat.beq (Nat.land (Nat.shiftRight seen (Nat.mod c 8939)) 1) 0 &&
      separated cs (Nat.lor seen (Nat.shiftLeft 1 (Nat.mod c 8939)))

/-- Every vector can be eliminated from the later ones, of which then no two are multiples of each
other. -/
def independent : List Nat → Bool
  | [] => true
  | v :: vs =>
    !Nat.beq v 0 && separated ((vs.map (eliminate (lead v) (normalize v))).map normalize)
      0 && independent vs

/-- The powers of x modulo the generator, without their last value. -/
def powers : List Nat := (List.iterate shiftRemainder (shiftRemainder 1) 87).map fun v => v >>> 5

theorem independent_powers : independent powers = true := by decide +kernel

theorem iterate_lt : ∀ v ∈ iterate shiftRemainder (shiftRemainder 1) 87, v < 2 ^ 30 := by decide

theorem powers_lt : ∀ v ∈ powers, v < 2 ^ 25 := by decide

/-- What is separated is different. -/
theorem separated_spec {cs : List Nat} : ∀ {seen : Nat}, separated cs seen = true →
      (∀ c ∈ cs, c ≠ 0 ∧ seen.testBit (c % 8939) = false) ∧ cs.Nodup := by
  induction cs with
  | nil => exact fun _ => ⟨nofun, nodup_nil⟩
  | cons c cs ih =>
    intro seen h
    rw [separated, Bool.and_eq_true, Bool.and_eq_true, Bool.not_eq_true'] at h
    obtain ⟨⟨hzero, hseen⟩, h⟩ := h
    obtain ⟨hrest, hnodup⟩ := ih h
    have hbit : seen.testBit (c % 8939) = false := by
      have hand : (seen >>> (c % 8939)) &&& 1 = 0 := Nat.eq_of_beq_eq_true hseen
      rw [Nat.testBit, Nat.and_comm, hand]
      rfl
    have hlater : ∀ d ∈ cs, seen.testBit (d % 8939) = false ∧ d % 8939 ≠ c % 8939 := by
      intro d hd
      have hd := (hrest d hd).2
      rw [show Nat.lor seen (Nat.shiftLeft 1 (Nat.mod c 8939)) = seen ||| 1 <<< (c % 8939) from rfl,
        Nat.testBit_or, Bool.or_eq_false_iff, Nat.one_shiftLeft] at hd
      refine ⟨hd.1, ?_⟩
      intro hsame
      rw [hsame, Nat.testBit_two_pow_self] at hd
      cases hd.2
    constructor
    · intro d hd
      rcases mem_cons.mp hd with rfl | hd
      · exact ⟨Nat.ne_of_beq_eq_false hzero, hbit⟩
      · exact ⟨(hrest d hd).1, (hlater d hd).1⟩
    apply nodup_cons.mpr
    constructor
    · exact fun hc => (hlater c hc).2 rfl
    · exact hnodup

/-! ## Sums of multiples -/

/-- The sum of multiples of vectors. -/
def combine : List Nat → List Nat → Nat
  | a :: as, v :: vs => scale a v ^^^ combine as vs
  | _, _ => 0

/-- The number of values other than zero. -/
def weight (as : List Nat) : Nat := as.countP fun a => a ≠ 0

theorem weight_cons_zero (as : List Nat) : weight (0 :: as) = weight as := by simp [weight]

variable {a : Nat} {as vs : List Nat}

theorem weight_cons_of_ne (h : a ≠ 0) (as : List Nat) :
    weight (a :: as) = weight as + 1 := by simp [weight, h]

theorem combine_of_weight_eq_zero (h : weight as = 0) : combine as vs = 0 := by
  induction as generalizing vs with
  | nil => rfl
  | cons a as ih =>
    by_cases ha : a = 0
    · subst ha
      cases vs with
      | nil => rfl
      | cons v vs => rw [combine, ih h, zero_scale, Nat.xor_zero]
    · rw [weight_cons_of_ne ha] at h
      cases h

/-- One multiple is left of a sum of weight one. -/
theorem combine_of_weight_eq_one (hlength : as.length ≤ vs.length) (h : weight as = 1) :
    ∃ a ∈ as, a ≠ 0 ∧ ∃ v ∈ vs, combine as vs = scale a v := by
  induction as generalizing vs with
  | nil => cases h
  | cons a as ih =>
    cases vs with
    | nil => cases hlength
    | cons v vs =>
      by_cases ha : a = 0
      · subst ha
        obtain ⟨b, hb, hne, w, hw, hsum⟩ := ih (Nat.le_of_succ_le_succ hlength) h
        refine ⟨b, mem_cons_of_mem _ hb, hne, w, mem_cons_of_mem _ hw, ?_⟩
        rw [combine, zero_scale, Nat.zero_xor, hsum]
      rw [weight_cons_of_ne ha] at h
      refine ⟨a, mem_cons_self, ha, v, mem_cons_self, ?_⟩
      rw [combine, combine_of_weight_eq_zero (Nat.succ.inj h), Nat.xor_zero]

/-- Linear maps that respect the action map sums to sums. -/
theorem map_combine {f : Nat → Nat} (hf : XorLinear f) (has : ∀ a ∈ as, a < 32)
    (hscale : ∀ a < 32, ∀ v ∈ vs, f (scale a v) = scale a (f v)) :
    f (combine as vs) = combine as (vs.map f) := by
  induction as generalizing vs with
  | nil => exact hf.map_zero
  | cons a as ih =>
    cases vs with
    | nil => exact hf.map_zero
    | cons v vs =>
      rw [combine, hf, hscale a (has a mem_cons_self) v mem_cons_self, map_cons, combine,
        ih (fun b hb => has b (mem_cons_of_mem _ hb)) fun b hb w hw => hscale b hb w
          (mem_cons_of_mem _ hw)]

/-- The induction over the first value that is not zero: it is enough that its multiple is not the
sum of the others, of which there is one less. -/
theorem weight_eq_zero_of_first {Good : List Nat → Prop} {n : Nat}
    (hfirst : ∀ v vs, Good (v :: vs) → Good vs ∧ ∀ a as, a < 32 → a ≠ 0 → (∀ b ∈ as, b < 32) →
      as.length ≤ vs.length → weight as ≤ n → scale a v ^^^ combine as vs ≠ 0)
    (has : ∀ a ∈ as, a < 32) (hgood : Good vs) (hlength : as.length ≤ vs.length)
      (hweight : weight as ≤ n + 1)
    (hsum : combine as vs = 0) : weight as = 0 := by
  induction as generalizing vs with
  | nil => rfl
  | cons a as ih =>
    cases vs with
    | nil => cases hlength
    | cons v vs =>
      have has' : ∀ b ∈ as, b < 32 := fun b hb => has b (mem_cons_of_mem _ hb)
      have hlength' := Nat.le_of_succ_le_succ hlength
      rw [combine] at hsum
      by_cases hzero : a = 0
      · subst hzero
        rw [zero_scale, Nat.zero_xor] at hsum
        exact ih has' (hfirst v vs hgood).1 hlength' hweight hsum
      rw [weight_cons_of_ne hzero] at hweight
      exact absurd hsum ((hfirst v vs hgood).2 a as (has a mem_cons_self) hzero has' hlength'
        (Nat.le_of_succ_le_succ hweight))

/-- Vectors of five values that are not zero and have different normal forms. -/
structure Separated (vs : List Nat) : Prop where
  lt : ∀ v ∈ vs, v < 2 ^ 25
  ne_zero : ∀ v ∈ vs, v ≠ 0
  nodup : (vs.map normalize).Nodup

/-- No two of them are dependent. -/
theorem Separated.weight_eq_zero (h : Separated vs) (has : ∀ a ∈ as, a < 32)
    (hlength : as.length ≤ vs.length) (hweight : weight as ≤ 2) (hsum : combine as vs = 0) :
      weight as = 0 := by
  apply weight_eq_zero_of_first _ has h hlength hweight hsum
  intro v vs h
  have hv := h.lt v mem_cons_self
  have hvs : ∀ w ∈ vs, w < 2 ^ 25 := fun w hw => h.lt w (mem_cons_of_mem _ hw)
  have hnodup := nodup_cons.mp h.nodup
  constructor
  · exact ⟨hvs, fun w hw => h.ne_zero w (mem_cons_of_mem _ hw), hnodup.2⟩
  intro a as ha hzero has hlength hweight hsum
  rcases Nat.le_one_iff_eq_zero_or_eq_one.mp hweight with hnone | hone
  · rw [combine_of_weight_eq_zero hnone, Nat.xor_zero, scale_eq_zero_iff ha hzero hv] at hsum
    exact h.ne_zero v mem_cons_self hsum
  · obtain ⟨b, hb, hbne, w, hw, hother⟩ := combine_of_weight_eq_one hlength hone
    rw [hother] at hsum
    have hnormal : normalize v = normalize w := by
      rw [← normalize_scale ha hzero hv, Nat.xor_eq_zero_iff.mp hsum,
        normalize_scale (has b hb) hbne (hvs w hw)]
    apply hnodup.1
    rw [hnormal]
    exact mem_map_of_mem hw

/-- What the check says about the first of the vectors. -/
theorem independent_cons {v : Nat} (hlt : ∀ w ∈ v :: vs, w < 2 ^ 25)
    (h : independent (v :: vs) = true) :
    v ≠ 0 ∧ Separated (vs.map (eliminate (lead v) (normalize v))) ∧ independent vs = true := by
  rw [independent, Bool.and_eq_true, Bool.and_eq_true, Bool.not_eq_true'] at h
  obtain ⟨⟨hne, hseparated⟩, hrest⟩ := h
  obtain ⟨hcodes, hnodup⟩ := separated_spec hseparated
  refine ⟨Nat.ne_of_beq_eq_false hne, ⟨?_, ?_, hnodup⟩, hrest⟩
  · intro w hw
    obtain ⟨other, hother, rfl⟩ := mem_map.mp hw
    exact eliminate_lt (normalize_lt (hlt v mem_cons_self)) (hlt other (mem_cons_of_mem _ hother))
  intro w hw hzero
  apply (hcodes (normalize w) (mem_map_of_mem hw)).1
  rw [hzero]
  exact scale_zero _

/-- No three vectors that pass the check are dependent. -/
theorem weight_eq_zero_of_independent (has : ∀ a ∈ as, a < 32) (hlt : ∀ v ∈ vs, v < 2 ^ 25)
    (h : independent vs = true) (hlength : as.length ≤ vs.length) (hweight : weight as ≤ 3)
    (hsum : combine as vs = 0) : weight as = 0 := by
  apply @weight_eq_zero_of_first as vs (fun vs => (∀ v ∈ vs, v < 2 ^ 25) ∧ independent vs = true) 2
    _ has ⟨hlt, h⟩ hlength hweight hsum
  intro v vs ⟨hlt, h⟩
  obtain ⟨hne, hseparated, hrest⟩ := independent_cons hlt h
  have hv := hlt v mem_cons_self
  have hvs : ∀ w ∈ vs, w < 2 ^ 25 := fun w hw => hlt w (mem_cons_of_mem _ hw)
  constructor
  · exact ⟨hvs, hrest⟩
  intro a as ha hzero has hlength hweight hsum
  have hnormal := normalize_lt hv
  have heliminated : combine as (vs.map (eliminate (lead v) (normalize v))) = 0 := by
    rw [← map_combine (eliminate_linear _ _) has fun b hb w hw => eliminate_scale hb
      hnormal (hvs w hw)]
    have hall := congrArg (eliminate (lead v) (normalize v)) hsum
    rw [eliminate_linear, eliminate_scale ha hnormal hv, eliminate_self hv hne,
      scale_zero, Nat.zero_xor, (eliminate_linear _ _).map_zero] at hall
    exact hall
  have hnone := hseparated.weight_eq_zero has (by rwa [length_map]) hweight heliminated
  rw [combine_of_weight_eq_zero hnone, Nat.xor_zero, scale_eq_zero_iff ha hzero hv] at hsum
  exact hne hsum

/-! ## Remainders -/

/-- The remainder of values, the last one first, as a sum of multiples of powers. -/
theorem combine_iterate (has : ∀ a ∈ as, a < 32) : ∀ {n k : Nat}, as.length ≤ n →
      combine as (iterate shiftRemainder (shiftRemainder^[k] 1) n) = shiftRemainder^[k]
        (remainder 0 as.reverse) := by
  induction as with
  | nil =>
    intro n k _
    exact (shiftRemainder_linear.iterate k).map_zero.symm
  | cons a as ih =>
    intro n k hlength
    have ha := has a mem_cons_self
    cases n with
    | zero => cases hlength
    | succ n =>
      have hmultiple : ∀ k, scale a (shiftRemainder^[k] 1) = shiftRemainder^[k] a ∧
          shiftRemainder^[k] 1 < 2 ^ 30 := by
        intro k
        induction k with
        | zero => exact ⟨scale_one ha, by decide⟩
        | succ k ih =>
          rw [iterate_succ_apply', iterate_succ_apply', ← shiftRemainder_scale ha ih.2, ih.1]
          exact ⟨rfl, shiftRemainder_lt _⟩
      have hrest := @ih (fun b hb => has b (mem_cons_of_mem _ hb)) n (k + 1)
        (Nat.le_of_succ_le_succ hlength)
      rw [iterate_succ_apply', iterate_succ_apply] at hrest
      rw [iterate, combine, hrest, (hmultiple k).1, reverse_cons, remainder_append, remainder_cons,
        Nat.xor_comm, ← shiftRemainder_linear.iterate]
      rfl

/-- Up to 88 values of which one to four are not zero have a remainder that is not zero. -/
theorem weight_eq_zero_of_remainder (has : ∀ a ∈ as, a < 32) (hlength : as.length ≤ 88)
    (hweight : weight as ≤ 4) (hzero : remainder 0 as.reverse = 0) : weight as = 0 := by
  induction as with
  | nil => rfl
  | cons a as ih =>
    have has' : ∀ b ∈ as, b < 32 := fun b hb => has b (mem_cons_of_mem _ hb)
    have hreverse : ∀ b ∈ as.reverse, b < 32 := fun b hb => has' b (mem_reverse.mp hb)
    have hlength' : as.length ≤ 87 := Nat.le_of_succ_le_succ hlength
    rw [reverse_cons, remainder_append, remainder_cons] at hzero
    have hshifted := Nat.xor_eq_zero_iff.mp hzero
    by_cases ha : a = 0
    · subst ha
      exact ih has' (Nat.le_of_succ_le hlength) hweight
        (shiftRemainder_eq_zero (remainder_lt hreverse (by decide)) hshifted)
    exfalso
    rw [weight_cons_of_ne ha] at hweight
    have hsum := @combine_iterate as has' 87 1 hlength'
    rw [iterate_one, hshifted] at hsum
    have hpowers : combine as powers = 0 := by
      rw [powers, ← map_combine (XorLinear.shiftRight 5) has', hsum]
      · have hlast := has a mem_cons_self
        rw [Nat.shiftRight_eq_div_pow]
        exact Nat.div_eq_of_lt hlast
      · intro b hb v hv
        exact scale_shiftRight_five hb (iterate_lt v hv)
    have hnone := weight_eq_zero_of_independent has' powers_lt independent_powers
      hlength' (Nat.le_of_succ_le_succ hweight) hpowers
    rw [combine_of_weight_eq_zero hnone] at hsum
    exact ha hsum.symm

/-! ## Strings -/

/-- A character in place of another: the same one, or one of the set in any case that stands for
another value. -/
def Replaces (c new : Nat) : Prop := new = c ∨
    (lowerCase new ∈ CHARSET ∧ lowerCase new ≠ lowerCase c)

/-- The number of positions with different characters. -/
def differences (str new : List Nat) : Nat := (str.zip new).countP fun pair => pair.2 ≠ pair.1

namespace Bech32

variable {str before after new values others : List Nat} {encoding : Encoding}

theorem remainder_zipWith (h : values.length = others.length) :
    ∀ a b : Nat, remainder (a ^^^ b) (values.zipWith Nat.xor others) = remainder a values ^^^
      remainder b others := by
  induction values generalizing others with
  | nil =>
    intro a b
    obtain rfl := length_eq_zero_iff.mp h.symm
    rfl
  | cons value values ih =>
    intro a b
    cases others with
    | nil => cases h
    | cons other others =>
      have hround : shiftRemainder (a ^^^ b) ^^^ Nat.xor value other =
          (shiftRemainder a ^^^ value) ^^^ (shiftRemainder b ^^^ other) := by
        rw [shiftRemainder_linear]
        show _ ^^^ (value ^^^ other) = _
        ac_rfl
      rw [zipWith_cons_cons, remainder_cons, remainder_cons, remainder_cons, hround]
      exact ih (Nat.succ.inj h) _ _

/-- Replaced characters stand for other values, and the values are different where the characters
are. -/
theorem weight_zipWith (h : Forall₂ Replaces after new)
    (hvalues : after.mapM decodeSymbol = some values)
      (hothers : new.mapM decodeSymbol = some others) :
    values.length = others.length ∧
      weight (values.zipWith Nat.xor others) = differences after new := by
  have hread := mapM_eq_some_iff.mp hvalues
  have hreadNew := mapM_eq_some_iff.mp hothers
  clear hvalues hothers
  induction h generalizing values others with
  | nil =>
    cases hread
    cases hreadNew
    exact ⟨rfl, rfl⟩
  | @cons c new after rest hreplaces _ ih =>
    obtain _ | ⟨hc, hread⟩ := hread
    obtain _ | ⟨hnew, hreadNew⟩ := hreadNew
    obtain ⟨hlength, hweight⟩ := ih hread hreadNew
    refine ⟨congrArg Nat.succ hlength, ?_⟩
    rw [zipWith_cons_cons, differences]
    by_cases hsame : new = c
    · subst hsame
      rw [hc] at hnew
      cases hnew
      rw [show Nat.xor _ _ = 0 from Nat.xor_self _, weight_cons_zero, hweight, differences]
      simp
    have hother := (hreplaces.resolve_left hsame).2
    rw [weight_cons_of_ne, hweight, differences]
    · simp [hsame]
    intro hzero
    obtain rfl := Nat.xor_eq_zero_iff.mp hzero
    have hchars := (charset_of_decodeSymbol hc).2
    rw [(charset_of_decodeSymbol hnew).2] at hchars
    exact hother (Option.some.inj hchars)

theorem separator_not_mem_of_replaces (h : Forall₂ Replaces after new)
    (hafter : SEPARATOR ∉ after) : SEPARATOR ∉ new := by
  intro hmem
  induction h with
  | nil => cases hmem
  | cons hreplaces _ ih =>
    rw [mem_cons, not_or] at hafter
    rcases mem_cons.mp hmem with rfl | hmem
    · rcases hreplaces with heq | ⟨hset, -⟩
      · exact hafter.1 heq
      · exact absurd hset (by decide)
    · exact ih hafter.2 hmem

/-- The values of an accepted string have the remainder of its encoding. -/
theorem Parts.remainder_eq {limit : Int} (h : Parts str limit before after values)
    (hvalid : encoding ≠ .invalid) (haccepted : (decode str limit).encoding = encoding) :
    remainder (polyMod (preparePolynomialCoefficients (before.map lowerCase) [])) values =
      encodingConstant encoding := by
  have hverified : verifyChecksum (before.map lowerCase) values = encoding := by
    rw [decode_of_parts h, DecodeResult.ofChecksum] at haccepted
    split at haccepted
    · exact absurd haccepted.symm hvalid
    · exact haccepted
  rw [verifyChecksum, encodingOfCheck_eq_iff hvalid, ← nil_append values,
    preparePolynomialCoefficients_append, polyMod, remainder_append] at hverified
  exact hverified

/-- Accepted strings have no other accepted string with the same encoding within four replaced
characters after the last separator. -/
theorem decode_detects_four_errors {str new : List Nat} {encoding : Encoding} {pos : Nat}
    (hvalid : encoding ≠ .invalid) (haccepted : (decode str CharLimit).encoding = encoding)
    (hpos : lastSeparator str = some pos) (hafter : List.Forall₂ Replaces (str.drop (pos + 1)) new)
    (hsome : 1 ≤ differences (str.drop (pos + 1)) new)
      (hfew : differences (str.drop (pos + 1)) new ≤ 4) :
    (decode (str.take (pos + 1) ++ new) CharLimit).encoding ≠ encoding := by
  intro hnew
  obtain ⟨before, after, values, hparts⟩ := parts_of_decode (haccepted ▸ hvalid)
  obtain ⟨_, _, others, hnewParts⟩ := parts_of_decode (hnew ▸ hvalid)
  obtain rfl : before.length = pos := Option.some.inj (hparts.lastSeparator_eq.symm.trans hpos)
  have hdrop : str.drop (before.length + 1) = after := by rw [hparts.str_eq, drop_separator]
  have htake : str.take (before.length + 1) = before ++ [SEPARATOR] := by
    rw [hparts.str_eq, take_append, take_of_length_le (Nat.le_succ _), Nat.add_sub_cancel_left]
    rfl
  rw [htake, append_assoc] at hnew hnewParts
  rw [hdrop] at hafter hsome hfew
  have hlast := lastSeparator_eq_some_iff.mpr
    ⟨before, new, rfl, separator_not_mem_of_replaces hafter (separator_not_mem hparts.symbols), rfl⟩
  have hsame :=
    append_inj hnewParts.str_eq (Option.some.inj (hlast.symm.trans hnewParts.lastSeparator_eq))
  obtain ⟨rfl, hrest⟩ := hsame
  obtain rfl := (cons.inj hrest).2
  obtain ⟨hlengths, hweight⟩ := weight_zipWith hafter hparts.symbols hnewParts.symbols
  obtain ⟨-, -, -, -, hvalues, -⟩ := hparts.split
  obtain ⟨-, -, -, -, hothers, -⟩ := hnewParts.split
  have hzero :=
    remainder_zipWith hlengths (polyMod (preparePolynomialCoefficients (before.map lowerCase) []))
    (polyMod (preparePolynomialCoefficients (before.map lowerCase) []))
  rw [hparts.remainder_eq hvalid haccepted, hnewParts.remainder_eq hvalid hnew, Nat.xor_self,
    Nat.xor_self] at hzero
  have hlength : (values.zipWith Nat.xor others).length ≤ 88 := by
    have hlimit := Int.ofNat_le.mp hparts.length_le
    have hpositive := length_pos_iff.mpr hparts.before_ne
    have hsymbols := (mapM_eq_some_iff.mp hparts.symbols).length_eq
    rw [hparts.str_eq, length_append, length_cons, CharLimit] at hlimit
    rw [length_zipWith]
    omega
  have hbounds : ∀ value ∈ values.zipWith Nat.xor others, value < 32 := by
    intro value hvalue
    rw [← map_uncurry_zip_eq_zipWith] at hvalue
    obtain ⟨pair, hpair, rfl⟩ := mem_map.mp hvalue
    have hmem := of_mem_zip hpair
    exact Nat.xor_lt_two_pow (show pair.1 < 2 ^ 5 from hvalues _ hmem.1) (hothers _ hmem.2)
  have hnone := @weight_eq_zero_of_remainder (values.zipWith Nat.xor others).reverse
    (fun value hvalue => hbounds value (mem_reverse.mp hvalue)) (by rwa [length_reverse])
    (by rwa [weight, countP_reverse, ← weight, hweight]) (by rwa [reverse_reverse])
  rw [weight, countP_reverse, ← weight] at hnone
  omega

/-- "a12uel5l" with its last character replaced. -/
theorem decode_detects_four_errors_short :
    (decode [97, 49, 50, 117, 101, 108, 53, 108] CharLimit).encoding = .bech32 ∧
      (decode [97, 49, 50, 117, 101, 108, 53, 113] CharLimit).encoding ≠ .bech32 := by
  have haccepted : (decode [97, 49, 50, 117, 101, 108, 53, 108] CharLimit).encoding = .bech32 := by
    decide
  have hreplaces : Forall₂ Replaces [50, 117, 101, 108, 53, 108] [50, 117, 101, 108, 53, 113] := by
    simp only [forall₂_cons, Forall₂.nil, Replaces]
    decide
  exact ⟨haccepted, decode_detects_four_errors (by decide) haccepted
    (show _ = some 1 by decide) hreplaces (by decide) (by decide)⟩

end Bech32

end BtcSharp
