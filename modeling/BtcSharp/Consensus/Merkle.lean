/-
# The Merkle root of a block

`ComputeMerkleRoot` of `consensus/merkle.cpp` hashes the elements of a level in pairs, a last one
without a partner with itself, until one element is left. So different lists can have one root. The
flag for mutations is set when the two elements of a pair are equal at some level, and without it
the root determines the list.

The hash is a function of two hashes. For the results it is injective, and its values are no leaves:
then the elements of a level all have one height, which tells levels apart.
-/

import Mathlib.Data.List.Induction
import Mathlib.Logic.Function.Iterate

namespace BtcSharp

open List

section

variable {H : Type*}

/-! ## The source -/

/-- The last element once more if the number of elements is odd. -/
def padOdd (hashes : List H) : List H :=
  if hashes.length % 2 = 1 then hashes ++ hashes.getLast?.toList else hashes

/-- `SHA256D64`: hash pairs. -/
def sha256D64 (hash : H → H → H) : List H → List H
  | left :: right :: rest => hash left right :: sha256D64 hash rest
  | _ => []

/-- One level up. -/
def levelUp (hash : H → H → H) (hashes : List H) : List H := sha256D64 hash (padOdd hashes)

/-- The search for equal elements in a pair. -/
def hasEqualPair [DecidableEq H] : List H → Bool
  | left :: right :: rest => left == right || hasEqualPair rest
  | _ => false

theorem length_sha256D64 (hash : H → H → H) (hashes : List H) :
    (sha256D64 hash hashes).length = hashes.length / 2 := by
  induction hashes using twoStepInduction with
  | nil | singleton => simp [sha256D64]
  | cons_cons left right rest ih _ =>
    rw [sha256D64, length_cons, length_cons, length_cons]
    omega

theorem length_padOdd (hashes : List H) : (padOdd hashes).length = (hashes.length + 1) / 2 * 2 := by
  unfold padOdd
  split
  · next hodd =>
    have hne : hashes ≠ [] := by
      rintro rfl
      cases hodd
    rw [getLast?_eq_some_getLast hne, Option.toList_some, length_append, length_singleton]
    omega
  · omega

theorem length_levelUp (hash : H → H → H) (hashes : List H) :
    (levelUp hash hashes).length = (hashes.length + 1) / 2 := by
  rw [levelUp, length_sha256D64, length_padOdd]
  omega

/-- The loop of `ComputeMerkleRoot`, with the flag found so far. -/
def merkleLoop [DecidableEq H] (hash : H → H → H) (hashes : List H) (mutation : Bool) :
    List H × Bool :=
  if 1 < hashes.length then merkleLoop hash (levelUp hash hashes) (mutation || hasEqualPair hashes)
  else (hashes, mutation)
termination_by hashes.length
decreasing_by
  rw [length_levelUp]
  omega

variable {hash : H → H → H} {hashes : List H}

theorem merkleLoop_of_long [DecidableEq H] (h : 1 < hashes.length)
    (mutation : Bool) : merkleLoop hash hashes mutation =
      merkleLoop hash (levelUp hash hashes) (mutation || hasEqualPair hashes) := by
  rw [merkleLoop, if_pos h]

theorem merkleLoop_of_short [DecidableEq H] (h : ¬ 1 < hashes.length)
    (mutation : Bool) : merkleLoop hash hashes mutation = (hashes, mutation) := by
  rw [merkleLoop, if_neg h]

/-- Every level is shorter. -/
theorem length_levelUp_lt (h : 1 < hashes.length) :
    (levelUp hash hashes).length < hashes.length := by
  rw [length_levelUp]
  omega

theorem levelUp_ne_nil (h : hashes ≠ []) : levelUp hash hashes ≠ [] := by
  apply length_pos_iff.mp
  have hpos := length_pos_iff.mpr h
  rw [length_levelUp]
  omega

/-- `ComputeMerkleRoot` with a place for the flag: the root and the flag. -/
def computeMerkleRoot [DecidableEq H] (hash : H → H → H) (null : H) (hashes : List H) : H × Bool :=
  ((merkleLoop hash hashes false).1.headD null, (merkleLoop hash hashes false).2)

/-! ## Levels -/

theorem levelUp_singleton (hash : H → H → H) (a : H) : levelUp hash [a] = [hash a a] := rfl

theorem levelUp_cons_cons (hash : H → H → H) (left right : H) (rest : List H) :
    levelUp hash (left :: right :: rest) = hash left right :: levelUp hash rest := by
  have hlength : (left :: right :: rest).length % 2 = rest.length % 2 := by
    rw [length_cons, length_cons, Nat.add_assoc, Nat.add_mod_right]
  unfold levelUp padOdd
  rw [hlength]
  split
  · next hodd =>
    cases rest with
    | nil => cases hodd
    | cons next later => rfl
  · rfl

/-- Without equal pairs a level determines the one below. Where the last element stands in for its
partner, the pair of the other list is equal. -/
theorem levelUp_inj [DecidableEq H] (hinj : ∀ a b c d, hash a b = hash c d → a = c ∧ b = d) :
    ∀ {first second : List H}, levelUp hash first = levelUp hash second →
      hasEqualPair first = false → hasEqualPair second = false → first = second
  | [], [], _, _, _ => rfl
  | [], _ :: _, h, _, _ => absurd h.symm (levelUp_ne_nil (cons_ne_nil _ _))
  | _ :: _, [], h, _, _ => absurd h (levelUp_ne_nil (cons_ne_nil _ _))
  | [a], [b], h, _, _ => by
    rw [levelUp_singleton, levelUp_singleton] at h
    rw [(hinj a a b b (cons.inj h).1).1]
  | [a], b :: b' :: rest, h, _, hsecond => by
    rw [levelUp_singleton, levelUp_cons_cons] at h
    obtain ⟨hleft, hright⟩ := hinj a a b b' (cons.inj h).1
    rw [hasEqualPair, ← hleft, ← hright, beq_self_eq_true, Bool.true_or] at hsecond
    cases hsecond
  | a :: a' :: rest, [b], h, hfirst, _ => by
    rw [levelUp_singleton, levelUp_cons_cons] at h
    obtain ⟨hleft, hright⟩ := hinj a a' b b (cons.inj h).1
    rw [hasEqualPair, hleft, hright, beq_self_eq_true, Bool.true_or] at hfirst
    cases hfirst
  | a :: a' :: rest, b :: b' :: rest', h, hfirst, hsecond => by
    rw [levelUp_cons_cons, levelUp_cons_cons] at h
    obtain ⟨hhead, htail⟩ := cons.inj h
    obtain ⟨rfl, rfl⟩ := hinj a a' b b' hhead
    rw [hasEqualPair, Bool.or_eq_false_iff] at hfirst hsecond
    rw [levelUp_inj hinj htail hfirst.2 hsecond.2]

/-- Where the flag is set. -/
theorem hasEqualPair_iff [DecidableEq H] :
    hasEqualPair hashes = true ↔ ∃ i a, hashes[2 * i]? = some a ∧ hashes[2 * i + 1]? = some a := by
  induction hashes using twoStepInduction with
  | nil | singleton x => simp [hasEqualPair]
  | cons_cons left right rest ih _ =>
    rw [hasEqualPair, Bool.or_eq_true, beq_iff_eq, ih]
    constructor
    · rintro (rfl | ⟨i, a, hleft, hright⟩)
      · exact ⟨0, left, rfl, rfl⟩
      · exact ⟨i + 1, a, hleft, hright⟩
    rintro ⟨i, a, hleft, hright⟩
    cases i with
    | zero =>
      left
      exact (Option.some.inj hleft).trans (Option.some.inj hright).symm
    | succ i => exact .inr ⟨i, a, hleft, hright⟩

/-! ## Heights -/

/-- The elements that are hashed up from leaves in a number of levels. -/
inductive HasHeight (hash : H → H → H) (leaf : H → Prop) : Nat → H → Prop
  | leaf {a : H} (h : leaf a) : HasHeight hash leaf 0 a
  | node {height : Nat} {a b : H} (left : HasHeight hash leaf height a)
      (right : HasHeight hash leaf height b) : HasHeight hash leaf (height + 1) (hash a b)

section

variable {hash : H → H → H} {leaf : H → Prop} (hinj : ∀ a b c d, hash a b = hash c d →
  a = c ∧ b = d) (hleaf : ∀ a b, ¬ leaf (hash a b))

include hinj hleaf

theorem HasHeight.unique {height height' : Nat} {a : H} (h : HasHeight hash leaf height a)
    (h' : HasHeight hash leaf height' a) : height = height' := by
  induction h generalizing height' with
  | leaf h =>
    cases h' with
    | leaf => rfl
    | node => exact absurd h (hleaf _ _)
  | @node height a b left right ih _ =>
    generalize hnode : hash a b = node at h'
    cases h' with
    | leaf h =>
      rw [← hnode] at h
      exact absurd h (hleaf _ _)
    | @node height' c d left' right' =>
      obtain ⟨rfl, rfl⟩ := hinj a b c d hnode
      rw [ih left']

omit hinj hleaf

theorem HasHeight.levelUp {height : Nat} (h : ∀ a ∈ hashes, HasHeight hash leaf height a) :
    ∀ a ∈ BtcSharp.levelUp hash hashes, HasHeight hash leaf (height + 1) a := by
  induction hashes using twoStepInduction with
  | nil => exact nofun
  | singleton x =>
    intro a ha
    obtain rfl := mem_singleton.mp ha
    exact .node (h x mem_cons_self) (h x mem_cons_self)
  | cons_cons left right rest ih _ =>
    intro a ha
    rw [levelUp_cons_cons] at ha
    rcases mem_cons.mp ha with rfl | hrest
    · exact .node (h left mem_cons_self) (h right (mem_cons_of_mem _ mem_cons_self))
    · exact ih (fun b hb => h b (mem_cons_of_mem _ (mem_cons_of_mem _ hb))) a hrest

/-- The root of more than one element is higher than they are. -/
theorem HasHeight.merkleLoop [DecidableEq H] (mutation : Bool) {height : Nat} (hne : hashes ≠ [])
    (h : ∀ a ∈ hashes, HasHeight hash leaf height a) :
    ∃ root above, (BtcSharp.merkleLoop hash hashes mutation).1 = [root] ∧
      HasHeight hash leaf (height + above) root ∧ (0 < above ↔ 1 < hashes.length) := by
  induction hashes, mutation using merkleLoop.induct hash generalizing height with
  | case1 hashes mutation hlength ih =>
    rw [merkleLoop_of_long hlength]
    obtain ⟨root, above, hroot, hheight, -⟩ := ih (levelUp_ne_nil hne) (.levelUp h)
    refine ⟨root, above + 1, hroot, ?_, ⟨fun _ => hlength, fun _ => Nat.succ_pos above⟩⟩
    rw [Nat.add_comm above 1, ← Nat.add_assoc]
    exact hheight
  | case2 hashes mutation hlength =>
    rw [merkleLoop_of_short hlength]
    obtain ⟨a, rfl⟩ : ∃ a, hashes = [a] := by
      apply length_eq_one_iff.mp
      have hpos := length_pos_iff.mpr hne
      omega
    exact ⟨a, 0, rfl, h a mem_cons_self,
      ⟨fun hzero => absurd hzero (Nat.lt_irrefl 0), fun hlong => absurd hlong hlength⟩⟩

/-- The flag is set once and for all. -/
theorem merkleLoop_snd [DecidableEq H] {mutation : Bool}
    (h : (merkleLoop hash hashes mutation).2 = false) :
    mutation = false ∧ (1 < hashes.length → hasEqualPair hashes = false ∧
      (merkleLoop hash (levelUp hash hashes) false).2 = false) := by
  induction hashes, mutation using merkleLoop.induct hash with
  | case1 hashes mutation hlength ih =>
    rw [merkleLoop_of_long hlength] at h
    obtain ⟨hflag, -⟩ := ih h
    rw [hflag] at h
    rw [Bool.or_eq_false_iff] at hflag
    exact ⟨hflag.1, fun _ => ⟨hflag.2, h⟩⟩
  | case2 hashes mutation hlength =>
    rw [merkleLoop_of_short hlength] at h
    exact ⟨h, fun hlong => absurd hlong hlength⟩

/-- The root does not depend on the flag. -/
theorem merkleLoop_fst [DecidableEq H] (hashes : List H) (mutation : Bool) :
    (merkleLoop hash hashes mutation).1 = (merkleLoop hash hashes false).1 := by
  induction hashes using (measure length).wf.induction generalizing mutation with
  | _ hashes ih =>
    by_cases hlength : 1 < hashes.length
    · rw [merkleLoop_of_long hlength, merkleLoop_of_long hlength, ih _ (length_levelUp_lt hlength),
        ih _ (length_levelUp_lt hlength) (false || hasEqualPair hashes)]
    · rw [merkleLoop_of_short hlength, merkleLoop_of_short hlength]

include hinj hleaf

/-- Lists of one height with one root and no equal pair are equal. The height of the root tells how
many levels there are. -/
theorem merkleLoop_inj [DecidableEq H] {first : List H} :
    ∀ {second : List H} {height : Nat}, first ≠ [] → second ≠ [] →
      (∀ a ∈ first, HasHeight hash leaf height a) → (∀ a ∈ second, HasHeight hash leaf height a) →
      (merkleLoop hash first false).1 = (merkleLoop hash second false).1 →
      (merkleLoop hash first false).2 = false → (merkleLoop hash second false).2 = false →
      first = second := by
  induction first using (measure length).wf.induction with
  | _ first ih =>
    intro second height hfirst hsecond hlow hlow' hroots hflag hflag'
    obtain ⟨root, above, hroot, hheight, habove⟩ := HasHeight.merkleLoop false hfirst hlow
    obtain ⟨root', above', hroot', hheight', habove'⟩ := HasHeight.merkleLoop false hsecond hlow'
    obtain rfl : root = root' := by
      rw [hroot, hroot'] at hroots
      exact (cons.inj hroots).1
    have hsame : above = above' := Nat.add_left_cancel (hheight.unique hinj hleaf hheight')
    have hlengths : 1 < first.length ↔ 1 < second.length := by rw [← habove, ← habove', hsame]
    by_cases hlength : 1 < first.length
    · have hlength' := hlengths.mp hlength
      obtain ⟨-, hnext⟩ := merkleLoop_snd hflag
      obtain ⟨-, hnext'⟩ := merkleLoop_snd hflag'
      rw [merkleLoop_of_long hlength, merkleLoop_of_long hlength', merkleLoop_fst,
        merkleLoop_fst (levelUp hash second)] at hroots
      have hlevels := ih (levelUp hash first) (length_levelUp_lt hlength) (levelUp_ne_nil hfirst)
        (levelUp_ne_nil hsecond) (.levelUp hlow) (.levelUp hlow') hroots
        (hnext hlength).2 (hnext' hlength').2
      exact levelUp_inj hinj hlevels (hnext hlength).1 (hnext' hlength').1
    · rw [merkleLoop_of_short hlength,
        merkleLoop_of_short (fun h => hlength (hlengths.mpr h))] at hroots
      exact hroots

end

/-- Lists without an equal pair at any level do not set the flag. -/
theorem merkleLoop_of_distinct [DecidableEq H]
    (h : ∀ k, hasEqualPair ((levelUp hash)^[k] hashes) = false) :
      (merkleLoop hash hashes false).2 = false := by
  induction hashes using (measure length).wf.induction with
  | _ hashes ih =>
    by_cases hlength : 1 < hashes.length
    · rw [merkleLoop_of_long hlength, show hasEqualPair hashes = false from h 0]
      exact ih _ (length_levelUp_lt hlength) fun k => h (k + 1)
    · rw [merkleLoop_of_short hlength]

/-! ## The root determines the list -/

/-- Lists of leaves with one root that leave the flag unset are equal, and the flag stays unset for
a list that has no equal pair at any level. -/
theorem computeMerkleRoot_inj [DecidableEq H] {hash : H → H → H} {leaf : H → Prop} (null : H)
    (hinj : ∀ a b c d, hash a b = hash c d → a = c ∧ b = d) (hleaf : ∀ a b, ¬ leaf (hash a b)) :
    (∀ first second : List H, first ≠ [] → second ≠ [] → (∀ a ∈ first, leaf a) →
      (∀ a ∈ second, leaf a) →
      (computeMerkleRoot hash null first).1 = (computeMerkleRoot hash null second).1 →
      (computeMerkleRoot hash null first).2 = false →
      (computeMerkleRoot hash null second).2 = false →
      first = second) ∧
    ∀ hashes : List H, (∀ k i a b, ((levelUp hash)^[k] hashes)[2 * i]? = some a →
        ((levelUp hash)^[k] hashes)[2 * i + 1]? = some b → a ≠ b) →
      (computeMerkleRoot hash null hashes).2 = false := by
  constructor
  · intro first second hfirst hsecond hleaves hleaves' hroots hflag hflag'
    have hlow : ∀ a ∈ first, HasHeight hash leaf 0 a := fun a ha => .leaf (hleaves a ha)
    have hlow' : ∀ a ∈ second, HasHeight hash leaf 0 a := fun a ha => .leaf (hleaves' a ha)
    obtain ⟨root, -, hroot, -⟩ := HasHeight.merkleLoop false hfirst hlow
    obtain ⟨_, -, hroot', -⟩ := HasHeight.merkleLoop false hsecond hlow'
    have hequal : (merkleLoop hash first false).1 = (merkleLoop hash second false).1 := by
      unfold computeMerkleRoot at hroots
      rw [hroot, hroot'] at hroots ⊢
      exact congrArg (fun root => [root]) hroots
    exact merkleLoop_inj hinj hleaf hfirst hsecond hlow hlow' hequal hflag hflag'
  · intro hashes hdistinct
    apply merkleLoop_of_distinct
    intro k
    apply Bool.eq_false_iff.mpr
    intro hpair
    obtain ⟨i, a, hleft, hright⟩ := hasEqualPair_iff.mp hpair
    exact hdistinct k i a a hleft hright rfl

end

/-- Hashes that show what they are made of. -/
inductive HashTree
  | leaf (n : Nat)
  | node (left right : HashTree)
  deriving DecidableEq

/-- The leaves among them. -/
def HashTree.IsLeaf : HashTree → Prop
  | .leaf _ => True
  | .node _ _ => False

/-- Three transactions and the same with the last one repeated have one root, so the repetition is
noticed. -/
theorem computeMerkleRoot_inj_repeated :
    (computeMerkleRoot .node (.leaf 0) [HashTree.leaf 0, .leaf 1, .leaf 2, .leaf 2]).2 ≠ false := by
  have hroot : (computeMerkleRoot .node (.leaf 0) [.leaf 0, .leaf 1, .leaf 2]).1 =
      (computeMerkleRoot .node (.leaf 0) [HashTree.leaf 0, .leaf 1, .leaf 2, .leaf 2]).1 := by
    simp [computeMerkleRoot, merkleLoop, levelUp, padOdd, sha256D64]
  have hflag :
      (computeMerkleRoot .node (.leaf 0) [HashTree.leaf 0, .leaf 1, .leaf 2]).2 = false := by
    simp [computeMerkleRoot, merkleLoop, levelUp, padOdd, sha256D64, hasEqualPair]
  have hleaves : ∀ a ∈ [HashTree.leaf 0, .leaf 1, .leaf 2], a.IsLeaf := by
    simp [HashTree.IsLeaf]
  have hleaves' : ∀ a ∈ [HashTree.leaf 0, .leaf 1, .leaf 2, .leaf 2], a.IsLeaf := by
    simp [HashTree.IsLeaf]
  intro hmutated
  have hlists :=
    (computeMerkleRoot_inj (.leaf 0) (fun _ _ _ _ => HashTree.node.inj) fun _ _ h => h).1
    _ _ (cons_ne_nil _ _) (cons_ne_nil _ _) hleaves hleaves' hroot hflag hmutated
  exact absurd (congrArg length hlists) (by decide)

end BtcSharp
