/-
# Extraction from partial Merkle trees

The extraction from a partial tree that was built, written and read again finds the root of the
block and the matched transactions. It follows the traversal that stored the bits and hashes, with
what is left of them in step. And whatever tree is given, the root determines the hashes on the way
down to the matched transactions: a tree whose root is that of a list can only report elements of
the list, where they are.

A failure is reported as the null hash, next to the transactions found so far. So these say nothing
if the root of the list is the null hash.
-/

import Mathlib.Data.List.GetD
import Mathlib.Tactic.IntervalCases
import BtcSharp.MerkleBlock
import BtcSharp.Consensus.Merkle

namespace BtcSharp

open CPartialMerkleTree ExtractState Function HashTree List Math

/-! ## The shape of the tree -/

variable {nTransactions height pos : Nat} {H : Type}

/-- Nodes cover the transactions. -/
theorem calcTreeWidth_le_iff :
    calcTreeWidth nTransactions height ≤ pos ↔ nTransactions ≤ pos * 2 ^ height := by
  have hpow : 0 < 2 ^ height := Nat.two_pow_pos height
  rw [calcTreeWidth, ← Nat.lt_succ_iff, Nat.div_lt_iff_lt_mul hpow, Nat.succ_mul]
  omega

theorem lt_calcTreeWidth_iff : pos < calcTreeWidth nTransactions height ↔
    pos * 2 ^ height < nTransactions := by
  rw [← Nat.not_le, calcTreeWidth_le_iff, Nat.not_le]

theorem calcTreeWidth_pos (h : 0 < nTransactions) (height : Nat) :
    0 < calcTreeWidth nTransactions height := by
  rwa [lt_calcTreeWidth_iff, Nat.zero_mul]

theorem calcTreeWidth_zero (nTransactions : Nat) :
    calcTreeWidth nTransactions 0 = nTransactions := by
  simp [calcTreeWidth]

/-- A node has a left child. -/
theorem lt_calcTreeWidth_left
    (h : pos < calcTreeWidth nTransactions (height + 1)) :
      pos * 2 < calcTreeWidth nTransactions height := by
  rw [calcTreeWidth_succ] at h
  omega

/-- The transactions below a node are those below its children. -/
theorem range'_succ_height (height pos : Nat) : range' (pos * 2 ^ (height + 1)) (2 ^ (height + 1)) =
      range' (pos * 2 * 2 ^ height) (2 ^ height) ++
        range' ((pos * 2 + 1) * 2 ^ height) (2 ^ height) := by
  have hpow : 2 ^ (height + 1) = 2 ^ height + 2 ^ height := by rw [pow_succ, Nat.mul_two]
  have hstart : pos * 2 ^ (height + 1) = pos * 2 * 2 ^ height := by rw [pow_succ]; ring
  have hmiddle : (pos * 2 + 1) * 2 ^ height = pos * 2 * 2 ^ height + 2 ^ height := by ring
  rw [hstart, hmiddle, hpow, range'_append_1]

/-- The height is reached before a level that surely has one node. -/
theorem treeHeight_le {top : Nat} (h : height ≤ top) (hn : nTransactions ≤ 2 ^ top) :
    treeHeight nTransactions height ≤ top := by
  induction height using treeHeight.induct nTransactions with
  | case1 height hwide ih =>
    rw [treeHeight_of_wide hwide]
    apply ih
    apply Nat.succ_le_of_lt (Nat.lt_of_le_of_ne h _)
    rintro rfl
    rw [← Nat.not_le, calcTreeWidth_le_iff, Nat.one_mul] at hwide
    exact hwide hn
  | case2 height hnarrow =>
    rw [treeHeight_of_narrow hnarrow]
    exact h

section

variable {hash : H → H → H} {null : H}

/-- An element of the next level. -/
theorem getElem?_levelUp (hash : H → H → H) (hashes : List H) (i : Nat) :
    (levelUp hash hashes)[i]? = hashes[i * 2]?.map fun left => hash left
      (hashes.getD (i * 2 + 1) left) := by
  induction hashes using twoStepInduction generalizing i with
  | nil => rfl
  | singleton a =>
    cases i with
    | zero => rfl
    | succ i => simp [levelUp_singleton, Nat.succ_mul]
  | cons_cons left right rest ih _ =>
    rw [levelUp_cons_cons]
    cases i with
    | zero => rfl
    | succ i =>
      rw [getElem?_cons_succ, ih, Nat.succ_mul]
      rfl

/-- The levels of the Merkle tree hold the hashes of the nodes. -/
theorem iterate_levelUp (hash : H → H → H) (null : H) (vTxid : List H) (height : Nat) :
    (levelUp hash)^[height] vTxid =
      (range (calcTreeWidth vTxid.length height)).map
        (calcHash hash null vTxid.length vTxid height) := by
  induction height with
  | zero =>
    rw [calcTreeWidth_zero]
    apply ext_getElem
    · simp
    · intro i hi hi'
      simp [calcHash, getElem?_eq_getElem (show i < vTxid.length from hi)]
  | succ height ih =>
    rw [iterate_succ_apply', ih]
    apply ext_getElem?
    intro i
    rw [getElem?_levelUp, calcTreeWidth_succ]
    by_cases hleft : i * 2 < calcTreeWidth vTxid.length height
    · have hi : i < (calcTreeWidth vTxid.length height + 1) / 2 := by omega
      by_cases hright : i * 2 + 1 < calcTreeWidth vTxid.length height <;>
        simp [hleft, hi, hright, calcHash]
    · have hi : ¬ i < (calcTreeWidth vTxid.length height + 1) / 2 := by omega
      simp [hleft, hi]

theorem length_iterate_levelUp (hash : H → H → H) (null : H) (vTxid : List H) (height : Nat) :
    ((levelUp hash)^[height] vTxid).length = calcTreeWidth vTxid.length height := by
  rw [iterate_levelUp hash null, length_map, length_range]

/-- The loop goes up to the height of the tree. -/
theorem merkleLoop_eq_iterate [DecidableEq H] (hash : H → H → H) (null : H) (vTxid : List H)
    (height : Nat) (mutation : Bool) :
    (merkleLoop hash ((levelUp hash)^[height] vTxid) mutation).1 =
      (levelUp hash)^[treeHeight vTxid.length height] vTxid := by
  induction height using treeHeight.induct vTxid.length generalizing mutation with
  | case1 height hwide ih =>
    rw [merkleLoop_of_long (by rwa [length_iterate_levelUp hash null]),
      ← iterate_succ_apply' (levelUp hash), ih, treeHeight_of_wide hwide]
  | case2 height hnarrow =>
    rw [merkleLoop_of_short (by rwa [length_iterate_levelUp hash null]),
      treeHeight_of_narrow hnarrow]

variable {vTxid : List H} {tree : CPartialMerkleTree H}

/-- The root is the hash of the topmost node. -/
theorem computeMerkleRoot_eq_calcHash [DecidableEq H] (hne : vTxid ≠ []) :
    (computeMerkleRoot hash null vTxid).1 =
      calcHash hash null vTxid.length vTxid (treeHeight vTxid.length 0) 0 := by
  have hloop := merkleLoop_eq_iterate hash null vTxid 0 false
  rw [iterate_zero_apply] at hloop
  rw [computeMerkleRoot, hloop, iterate_levelUp hash null, headD_eq_head?_getD, head?_map,
    head?_eq_getElem?, getElem?_range (calcTreeWidth_pos (length_pos_iff.mpr hne) _)]
  rfl

/-! ## Matched transactions -/

/-- The matched transactions below a node. -/
def matchedBelow (nTransactions : Nat) (vMatch : List Bool) (height pos : Nat) : List Nat :=
  (List.range' (pos * 2 ^ height) (2 ^ height)).filter fun p =>
    decide (p < nTransactions) && vMatch.getD p false

theorem parentOfMatch_eq (nTransactions : Nat) (vMatch : List Bool) (height pos : Nat) :
    parentOfMatch nTransactions vMatch height pos =
    !(matchedBelow nTransactions vMatch height pos).isEmpty := by
  rw [parentOfMatch, matchedBelow, Bool.eq_iff_iff]
  simp [and_assoc]

theorem matchedBelow_zero (nTransactions : Nat) (vMatch : List Bool) (pos : Nat) :
    matchedBelow nTransactions vMatch 0 pos = if parentOfMatch nTransactions vMatch 0
      pos then [pos] else [] := by
  simp [matchedBelow, parentOfMatch, filter_cons]

theorem matchedBelow_succ (nTransactions : Nat) (vMatch : List Bool) (height pos : Nat) :
    matchedBelow nTransactions vMatch (height + 1) pos =
      matchedBelow nTransactions vMatch height (pos * 2) ++
        matchedBelow nTransactions vMatch height (pos * 2 + 1) := by
  rw [matchedBelow, range'_succ_height, filter_append]
  rfl

theorem filter_range'_past {start : Nat} (h : nTransactions ≤ start) (count : Nat)
    (vMatch : List Bool) :
    ((range' start count).filter fun p => decide (p < nTransactions) && vMatch.getD p false) =
    [] := by
  rw [filter_eq_nil_iff]
  intro p hp
  have hpast : ¬ p < nTransactions := Nat.not_lt.mpr (h.trans (mem_range'_1.mp hp).1)
  simp [hpast]

/-- Beyond the last node of a level there are no transactions. -/
theorem matchedBelow_of_le (h : calcTreeWidth nTransactions height ≤ pos) (vMatch : List Bool) :
    matchedBelow nTransactions vMatch height pos = [] :=
  filter_range'_past (calcTreeWidth_le_iff.mp h) _ _

/-- The matched transactions below all nodes of a level with one node. -/
theorem matchedBelow_top (h : calcTreeWidth nTransactions height ≤ 1) (vMatch : List Bool) :
    matchedBelow nTransactions vMatch height 0 =
      (range nTransactions).filter fun p => vMatch.getD p false := by
  rw [calcTreeWidth_le_iff, Nat.one_mul] at h
  obtain ⟨_, hmore⟩ := Nat.exists_eq_add_of_le h
  rw [matchedBelow, Nat.zero_mul, hmore, ← range'_append_1, filter_append,
    filter_range'_past (Nat.le_add_left _ _), append_nil, ← range_eq_range']
  apply filter_congr
  intro p hp
  rw [decide_eq_true (mem_range.mp hp), Bool.true_and]

theorem calcTreeWidth_treeHeight (nTransactions height : Nat) :
    calcTreeWidth nTransactions (treeHeight nTransactions height) ≤ 1 := by
  induction height using treeHeight.induct nTransactions with
  | case1 height hwide ih =>
    rw [treeHeight_of_wide hwide]
    exact ih
  | case2 height hnarrow =>
    rw [treeHeight_of_narrow hnarrow]
    exact Nat.le_of_not_lt hnarrow

/-! ## What is built is extracted -/

/-- The state after extracting all that was stored for a node. -/
def ExtractState.after (state : ExtractState H) (bits : List Bool) (hashes : List H)
    (vTxid : List H) (null : H) (reported : List Nat) : ExtractState H :=
  { nBitsUsed := state.nBitsUsed + bits.length
    nHashUsed := state.nHashUsed + hashes.length
    vMatch := state.vMatch ++ reported.map fun p => vTxid.getD p null
    vnIndex := state.vnIndex ++ reported
    fBad := state.fBad }

variable {α : Type} {values rest : List α} {used : Nat} {before after : ExtractState H}

theorem getElem?_of_drop {value : α}
    (h : values.drop used = value :: rest) : values[used]? = some value ∧
      values.drop (used + 1) = rest := by
  constructor
  · rw [← Nat.add_zero used, ← getElem?_drop, h, getElem?_cons_zero]
  · rw [← drop_drop, h, drop_one, tail_cons]

theorem drop_of_drop {first : List α}
    (h : values.drop used = first ++ rest) : values.drop (used + first.length) = rest := by
  rw [← drop_drop, h, drop_left]

/-- The state after a bit was read. -/
def ExtractState.down (state : ExtractState H) : ExtractState H :=
  { state with nBitsUsed := state.nBitsUsed + 1 }

section

variable [DecidableEq H] {state : ExtractState H}

omit [DecidableEq H] in
theorem useHash_of_some (state : ExtractState H) {value : H}
    (h : tree.vHash[state.nHashUsed]? = some value) (report : Bool) (pos : Nat) :
    useHash null tree report pos state =
      (value,
        ⟨state.nBitsUsed, state.nHashUsed + 1, state.vMatch ++ (if report then [value] else []),
        state.vnIndex ++ (if report then [pos] else []), state.fBad⟩) := by
  rw [useHash, h]
  cases report <;> simp

theorem traverseAndExtract_stop {bit : Bool} (h : tree.vBits[state.nBitsUsed]? = some bit)
    (hstop : height = 0 ∨ bit = false) (pos : Nat) :
    traverseAndExtract hash null tree height pos state = useHash null tree bit pos state.down := by
  rcases hstop with rfl | rfl
  · rw [traverseAndExtract, h]
    rfl
  · cases height <;> rw [traverseAndExtract, h] <;> rfl

theorem traverseAndExtract_descend_one (h : tree.vBits[state.nBitsUsed]? = some true)
    (hright : ¬ pos * 2 + 1 < calcTreeWidth tree.nTransactions height) :
    traverseAndExtract hash null tree (height + 1) pos state =
      (hash (traverseAndExtract hash null tree height (pos * 2) state.down).1
          (traverseAndExtract hash null tree height (pos * 2) state.down).1,
        (traverseAndExtract hash null tree height (pos * 2) state.down).2) := by
  rw [traverseAndExtract, h]
  simp only [if_neg hright]
  rfl

theorem traverseAndExtract_descend_two (h : tree.vBits[state.nBitsUsed]? = some true)
    (hright : pos * 2 + 1 < calcTreeWidth tree.nTransactions height) :
    traverseAndExtract hash null tree (height + 1) pos state =
      let left := traverseAndExtract hash null tree height (pos * 2) state.down
      let right := traverseAndExtract hash null tree height (pos * 2 + 1) left.2
      (hash left.1 right.1, if right.1 = left.1 then { right.2 with fBad := true } else right.2) :=
        by
  rw [traverseAndExtract, h]
  simp only [if_pos hright]
  rfl

end

theorem traverseAndExtract_built [DecidableEq H] {vMatch : List Bool}
    (hdistinct : ∀ height pos, pos * 2 + 1 < calcTreeWidth tree.nTransactions height →
      calcHash hash null tree.nTransactions vTxid height (pos * 2) ≠
        calcHash hash null tree.nTransactions vTxid height (pos * 2 + 1)) :
    ∀ (height pos : Nat) (state : ExtractState H) {bits : List Bool} {hashes : List H},
      tree.vBits.drop state.nBitsUsed =
        (traverseAndBuild hash null tree.nTransactions vTxid vMatch height pos).1 ++ bits →
      tree.vHash.drop state.nHashUsed =
        (traverseAndBuild hash null tree.nTransactions vTxid vMatch height pos).2 ++ hashes →
      traverseAndExtract hash null tree height pos state =
        (calcHash hash null tree.nTransactions vTxid height pos,
          state.after (traverseAndBuild hash null tree.nTransactions vTxid vMatch height pos).1
            (traverseAndBuild hash null tree.nTransactions vTxid vMatch height pos).2 vTxid null
            (matchedBelow tree.nTransactions vMatch height pos)) := by
  intro height
  induction height with
  | zero =>
    intro pos state bits hashes hbits hhashes
    rw [traverseAndBuild] at hbits hhashes ⊢
    obtain ⟨hbit, -⟩ := getElem?_of_drop hbits
    obtain ⟨hhash, -⟩ := getElem?_of_drop hhashes
    rw [traverseAndExtract_stop hbit (Or.inl rfl), useHash_of_some state.down hhash,
      matchedBelow_zero]
    cases parentOfMatch tree.nTransactions vMatch 0 pos <;>
      simp [ExtractState.after, down, calcHash]
  | succ height ih =>
    intro pos state bits hashes hbits hhashes
    rw [traverseAndBuild] at hbits hhashes ⊢
    cases hparent : parentOfMatch tree.nTransactions vMatch (height + 1) pos with
    | false =>
      rw [hparent] at hbits hhashes
      obtain ⟨hbit, -⟩ := getElem?_of_drop hbits
      obtain ⟨hhash, -⟩ := getElem?_of_drop hhashes
      have hnone : matchedBelow tree.nTransactions vMatch (height + 1) pos = [] := by
        rw [parentOfMatch_eq, Bool.not_eq_false', List.isEmpty_iff] at hparent
        exact hparent
      rw [traverseAndExtract_stop hbit (Or.inr rfl), useHash_of_some state.down hhash, hnone]
      simp [ExtractState.after, down]
    | true =>
      rw [hparent, if_pos rfl] at hbits hhashes
      rw [cons_append] at hbits
      obtain ⟨hbit, hbits⟩ := getElem?_of_drop hbits
      rw [matchedBelow_succ]
      by_cases hright : pos * 2 + 1 < calcTreeWidth tree.nTransactions height
      · simp only [if_pos hright, append_assoc] at hbits hhashes ⊢
        have hleft := ih (pos * 2) state.down hbits hhashes
        have hnext := ih (pos * 2 + 1) (state.down.after _ _ vTxid null
          (matchedBelow tree.nTransactions vMatch height (pos * 2))) (drop_of_drop hbits)
            (drop_of_drop hhashes)
        rw [traverseAndExtract_descend_two hbit hright, hleft]
        simp only [hnext, if_neg (hdistinct height pos hright).symm]
        simp [ExtractState.after, down, calcHash, hright]
        omega
      · simp only [if_neg hright, append_nil] at hbits hhashes ⊢
        have hleft := ih (pos * 2) state.down hbits hhashes
        rw [traverseAndExtract_descend_one hbit hright, hleft,
          matchedBelow_of_le (Nat.le_of_not_lt hright)]
        simp [ExtractState.after, down, calcHash, hright]
        omega

/-- How much is stored: at most one hash for a transaction, and a bit for each hash. -/
theorem traverseAndBuild_length (hash : H → H → H) (null : H) (vTxid : List H)
    (vMatch : List Bool) : ∀ {pos : Nat}, pos < calcTreeWidth nTransactions height →
      let built := traverseAndBuild hash null nTransactions vTxid vMatch height pos
      pos * 2 ^ height + built.2.length ≤ nTransactions ∧ built.2.length ≤ 2 ^ height ∧
        built.2.length ≤ built.1.length ∧ built.1.length < 2 ^ (height + 1) := by
  induction height with
  | zero =>
    intro pos hpos
    rw [calcTreeWidth_zero] at hpos
    simp only [traverseAndBuild, length_singleton]
    omega
  | succ height ih =>
    intro pos hpos
    have hpow : 2 ^ (height + 1) = 2 * 2 ^ height := by rw [pow_succ, Nat.mul_comm]
    have hstart : pos * 2 ^ (height + 1) = pos * 2 * 2 ^ height := by rw [hpow, Nat.mul_assoc]
    have hmiddle : (pos * 2 + 1) * 2 ^ height = pos * 2 * 2 ^ height + 2 ^ height :=
      Nat.succ_mul _ _
    obtain ⟨hcover, hfew, hbits, hshort⟩ := ih (lt_calcTreeWidth_left hpos)
    rw [lt_calcTreeWidth_iff] at hpos
    rw [traverseAndBuild]
    split
    · by_cases hright : pos * 2 + 1 < calcTreeWidth nTransactions height
      · obtain ⟨hcover', hfew', hbits', hshort'⟩ := ih hright
        simp only [if_pos hright, length_cons, length_append]
        omega
      · simp only [if_neg hright, append_nil, length_cons]
        omega
    · simp only [length_singleton]
      omega

/-! ## Whatever is extracted belongs to the root -/

/-- From one state to the other only elements of a list are reported, where they are. -/
def Reports (vTxid : List H) (before after : ExtractState H) : Prop :=
  ∃ reported : List (H × Nat), (∀ leaf ∈ reported, vTxid[leaf.2]? = some leaf.1) ∧
    after.vMatch = before.vMatch ++ reported.map Prod.fst ∧
    after.vnIndex = before.vnIndex ++ reported.map Prod.snd

theorem Reports.nothing (hmatch : after.vMatch = before.vMatch)
    (hindex : after.vnIndex = before.vnIndex) : Reports vTxid before after :=
  ⟨[], nofun, by simpa using hmatch, by simpa using hindex⟩

theorem Reports.trans {first second third : ExtractState H} (h : Reports vTxid first second)
    (h' : Reports vTxid second third) : Reports vTxid first third := by
  obtain ⟨reported, hleaves, hmatch, hindex⟩ := h
  obtain ⟨reported', hleaves', hmatch', hindex'⟩ := h'
  refine ⟨reported ++ reported', ?_, ?_, ?_⟩
  · intro leaf hleaf
    rcases mem_append.mp hleaf with hleaf | hleaf
    · exact hleaves leaf hleaf
    · exact hleaves' leaf hleaf
  · rw [hmatch', hmatch, map_append, append_assoc]
  · rw [hindex', hindex, map_append, append_assoc]

/-- Reading a bit reports nothing. -/
theorem Reports.of_down (h : Reports vTxid before.down after) : Reports vTxid before after := by
  have hdown : Reports vTxid before before.down := .nothing rfl rfl
  exact hdown.trans h

theorem Reports.useHash {state : ExtractState H}
    {report : Bool} (h : report = true →
      vTxid[pos]? = some (BtcSharp.useHash null tree report pos state).1) :
    Reports vTxid state (BtcSharp.useHash null tree report pos state).2 := by
  cases hhash : tree.vHash[state.nHashUsed]? with
  | none =>
    rw [BtcSharp.useHash, hhash]
    exact .nothing rfl rfl
  | some value =>
    rw [useHash_of_some state hhash] at h ⊢
    cases report with
    | false => exact .nothing (append_nil _) (append_nil _)
    | true =>
      refine ⟨[(value, pos)], ?_, rfl, rfl⟩
      intro leaf hleaf
      rw [mem_singleton.mp hleaf]
      exact h rfl

/-- Nodes whose hashes are those of a list report elements of the list. -/
theorem traverseAndExtract_sound [DecidableEq H] (hinj : ∀ a b c d, hash a b = hash c d →
    a = c ∧ b = d) (hn : tree.nTransactions = vTxid.length) :
    ∀ {pos : Nat} {state : ExtractState H}, pos < calcTreeWidth tree.nTransactions height →
      (traverseAndExtract hash null tree height pos state).1 =
        calcHash hash null tree.nTransactions vTxid height pos →
      Reports vTxid state (traverseAndExtract hash null tree height pos state).2 := by
  induction height with
  | zero =>
    intro pos state hpos hroot
    cases hbit : tree.vBits[state.nBitsUsed]? with
    | none =>
      rw [traverseAndExtract, hbit]
      exact .nothing rfl rfl
    | some bit =>
      rw [traverseAndExtract_stop hbit (Or.inl rfl)] at hroot ⊢
      apply Reports.of_down
      apply Reports.useHash
      intro _
      rw [calcTreeWidth_zero, hn] at hpos
      rw [hroot, calcHash, getD_eq_getElem vTxid null hpos, getElem?_eq_getElem hpos]
  | succ height ih =>
    intro pos state hpos hroot
    cases hbit : tree.vBits[state.nBitsUsed]? with
    | none =>
      rw [traverseAndExtract, hbit]
      exact .nothing rfl rfl
    | some bit =>
      cases bit with
      | false =>
        rw [traverseAndExtract_stop hbit (Or.inr rfl)]
        apply Reports.of_down
        exact .useHash fun h => absurd h Bool.false_ne_true
      | true =>
        apply Reports.of_down
        have hleftpos := lt_calcTreeWidth_left hpos
        rw [calcHash] at hroot
        by_cases hright : pos * 2 + 1 < calcTreeWidth tree.nTransactions height
        · rw [traverseAndExtract_descend_two hbit hright] at hroot ⊢
          simp only [if_pos hright] at hroot ⊢
          obtain ⟨hleft, hright'⟩ := hinj _ _ _ _ hroot
          apply (ih hleftpos hleft).trans
          apply (ih hright hright').trans
          split <;> exact .nothing rfl rfl
        · rw [traverseAndExtract_descend_one hbit hright] at hroot ⊢
          exact ih hleftpos (hinj _ _ _ _ hroot).1

end

/-! ## Bits and bytes -/

theorem testBit_packByte (bit : Nat → Bool) {r : Nat} (hr : r < 8) :
    (packByte bit &&& (1 <<< UInt8.ofNat r) != 0) = bit r := by
  have hall : ∀ b0 b1 b2 b3 b4 b5 b6 b7 : Bool, ∀ r : Fin 8,
      (packByte (fun i => [b0, b1, b2, b3, b4, b5, b6, b7].getD i false) &&&
        (1 <<< UInt8.ofNat r) != 0) = [b0, b1, b2, b3, b4, b5, b6, b7].getD r false := by
    decide +kernel
  have hcongr : packByte bit =
      packByte fun i => [bit 0, bit 1, bit 2, bit 3, bit 4, bit 5, bit 6, bit 7].getD i false := rfl
  rw [hcongr, hall _ _ _ _ _ _ _ _ ⟨r, hr⟩]
  interval_cases r <;> rfl

/-- Bits come back padded to whole bytes. -/
theorem bytesToBits_bitsToBytes (bits : List Bool) : bytesToBits (bitsToBytes bits) =
      bits ++ replicate ((bits.length + 7) / 8 * 8 - bits.length) false := by
  have hbytes : (bitsToBytes bits).length = (bits.length + 7) / 8 := by
    rw [bitsToBytes, length_map, length_range]
  apply ext_getElem
  · rw [bytesToBits, length_map, length_range, length_append, length_replicate]
    omega
  intro p hp hp'
  rw [bytesToBits, length_map, length_range] at hp
  have hq : p / 8 < (bits.length + 7) / 8 := by omega
  have hget : (bytesToBits (bitsToBytes bits))[p] = bits.getD p false := by
    simp only [bytesToBits, bitsToBytes, getElem_map, getElem_range]
    rw [getD_eq_getElem _ _ (by simpa using hq), getElem_map, getElem_range,
      testBit_packByte _ (Nat.mod_lt p (by decide)), Nat.div_add_mod]
  rw [hget]
  by_cases hshort : p < bits.length
  · rw [getElem_append_left hshort, getD_eq_getElem _ _ hshort]
  · rw [getElem_append_right (Nat.le_of_not_lt hshort), getElem_replicate,
      getD_eq_default _ _ (Nat.le_of_not_lt hshort)]

/-- A tree is read back with its bits padded. -/
theorem unserialize_serialize {tree : CPartialMerkleTree Uint256} (hn : tree.nTransactions < 2 ^ 32)
    (hhashes : tree.vHash.length ≤ MAX_SIZE) (hbits : (tree.vBits.length + 7) / 8 ≤ MAX_SIZE) :
    CPartialMerkleTree.unserialize.Reads tree.serialize { tree with
        vBits := tree.vBits ++ replicate ((tree.vBits.length + 7) / 8 * 8 - tree.vBits.length) false
        fBad := false } := by
  have hbytes : bytesCodec.valid (bitsToBytes tree.vBits) := by
    refine ⟨?_, fun _ _ => trivial⟩
    rw [bitsToBytes, length_map, length_range]
    exact hbits
  apply (uint32Codec.reads _ trivial).bind
  apply (readVector_reads hhashes fun hash _ => uint256Codec.reads hash trivial).bind
  apply (bytesCodec.reads _ hbytes).map
  rw [bytesToBits_bitsToBytes, UInt32.toNat_ofNat_of_lt' hn]
  exact .pure _

/-! ## Completeness and soundness -/

/-- The matched elements of a list with their indices. -/
def matchedLeaves {H : Type} (vTxid : List H) (vMatch : List Bool) : List (H × Nat) :=
  vTxid.zipIdx.filter fun leaf => vMatch.getD leaf.2 false

theorem matchedLeaves_eq (null : H) (vTxid : List H) (vMatch : List Bool) :
    matchedLeaves vTxid vMatch =
      ((range vTxid.length).filter fun p => vMatch.getD p false).map
        fun p => (vTxid.getD p null, p) := by
  have hleaves : vTxid.zipIdx = (range vTxid.length).map fun p => (vTxid.getD p null, p) := by
    apply ext_getElem
    · simp
    intro p hp hp'
    rw [length_zipIdx] at hp
    simp [hp]
  rw [matchedLeaves, hleaves, filter_map]
  rfl

variable {hash : H → H → H} {null : H} {vTxid : List H} {vMatch : List Bool}
    {tree : CPartialMerkleTree H}

/-- A built tree with padded bits gives the root and the matched elements. -/
theorem extractMatches_built [DecidableEq H] {padding : List Bool}
    (hne : vTxid ≠ []) (hfew : vTxid.length ≤ MAX_BLOCK_WEIGHT / MIN_TRANSACTION_WEIGHT)
    (hdistinct : ∀ k i a b, ((levelUp hash)^[k] vTxid)[2 * i]? = some a →
      ((levelUp hash)^[k] vTxid)[2 * i + 1]? = some b → a ≠ b)
    (hn : tree.nTransactions = (CPartialMerkleTree.build hash null vTxid vMatch).nTransactions)
    (hhashes : tree.vHash = (CPartialMerkleTree.build hash null vTxid vMatch).vHash)
    (hbits : tree.vBits = (CPartialMerkleTree.build hash null vTxid vMatch).vBits ++ padding)
    (hpadding : ((CPartialMerkleTree.build hash null vTxid vMatch).vBits.length + 7) / 8 =
      (tree.vBits.length + 7) / 8)
    (hgood : tree.fBad = false) (vnIndex : List Nat) :
    extractMatches hash null tree vnIndex =
      ((computeMerkleRoot hash null vTxid).1, (matchedLeaves vTxid vMatch).map Prod.fst,
        vnIndex ++ (matchedLeaves vTxid vMatch).map Prod.snd) := by
  replace hn : tree.nTransactions = vTxid.length := hn
  have hpos : 0 < tree.nTransactions := hn ▸ length_pos_iff.mpr hne
  obtain ⟨hcover, -, hfewer, -⟩ :=
    traverseAndBuild_length hash null vTxid vMatch
      (calcTreeWidth_pos hpos (treeHeight tree.nTransactions 0))
  have hsiblings : ∀ height pos, pos * 2 + 1 < calcTreeWidth tree.nTransactions height →
      calcHash hash null tree.nTransactions vTxid height (pos * 2) ≠
        calcHash hash null tree.nTransactions vTxid height (pos * 2 + 1) := by
    intro height pos hright
    rw [hn] at hright ⊢
    apply hdistinct height pos
    · rw [iterate_levelUp hash null, Nat.mul_comm 2 pos, getElem?_map,
        getElem?_range (Nat.lt_of_succ_lt hright)]
      rfl
    · rw [iterate_levelUp hash null, Nat.mul_comm 2 pos, getElem?_map, getElem?_range hright]
      rfl
  simp only [build, ← hn] at hhashes hbits hpadding
  have hextract := traverseAndExtract_built hsiblings _ 0 ⟨0, 0, [], vnIndex, tree.fBad⟩ hbits
    (hhashes.trans (append_nil _).symm)
  rw [← hhashes] at hcover
  rw [← hhashes] at hfewer hextract
  have henough : tree.vHash.length ≤ tree.vBits.length := by
    rw [hbits, length_append]
    exact Nat.le_add_right_of_le hfewer
  rw [extractMatches, if_neg (by omega), if_neg (by omega), if_neg (by omega),
    if_neg (by omega), hextract,
    matchedBelow_top (calcTreeWidth_treeHeight _ _), matchedLeaves_eq null,
    computeMerkleRoot_eq_calcHash hne]
  simp only [ExtractState.after, hgood, ← hpadding, hn]
  simp [comp_def]

/-- A root other than the null hash is the one that was extracted. -/
theorem extractMatches_of_ne_null [DecidableEq H] {vnIndex : List Nat} (h :
    (extractMatches hash null tree vnIndex).1 ≠ null) :
    tree.nTransactions ≠ 0 ∧
      extractMatches hash null tree vnIndex =
        let extracted := traverseAndExtract hash null tree (treeHeight tree.nTransactions 0) 0
          ⟨0, 0, [], vnIndex, tree.fBad⟩
        (extracted.1, extracted.2.vMatch, extracted.2.vnIndex) := by
  unfold extractMatches at h ⊢
  grind

/-- What is built from a block fits into what can be read. -/
theorem build_length {built : CPartialMerkleTree H} (hne : vTxid ≠ [])
    (hfew : vTxid.length ≤ MAX_BLOCK_WEIGHT / MIN_TRANSACTION_WEIGHT)
    (hbuilt : CPartialMerkleTree.build hash null vTxid vMatch = built) :
    built.nTransactions < 2 ^ 32 ∧ built.vHash.length ≤ MAX_SIZE ∧
    (built.vBits.length + 7) / 8 ≤ MAX_SIZE := by
  have hmost : MAX_BLOCK_WEIGHT / MIN_TRANSACTION_WEIGHT ≤ 2 ^ 15 := by decide
  have htop := calcTreeWidth_pos (length_pos_iff.mpr hne) (treeHeight vTxid.length 0)
  obtain ⟨hcover, -, -, hshort⟩ := traverseAndBuild_length hash null vTxid vMatch htop
  have hheight := treeHeight_le (Nat.zero_le 15) (hfew.trans hmost)
  have hbound : 2 ^ (treeHeight vTxid.length 0 + 1) ≤ 2 ^ 16 :=
    Nat.pow_le_pow_right (by decide) (Nat.succ_le_succ hheight)
  subst hbuilt
  simp only [build, MAX_SIZE]
  omega

/-- Partial Merkle trees are complete and sound. A tree that was built from at most as many
transactions as a block can have, of which no two siblings are equal, written and read back, gives
the root and exactly the matched transactions with their indices in order. And a tree that gives the
root of a list, which is not the null hash, only reports elements of the list with their indices. -/
theorem partialMerkleTree_complete_and_sound :
    (∀ (hash : Uint256 → Uint256 → Uint256) (vTxid : List Uint256) (vMatch : List Bool)
      (vnIndex : List Nat), vTxid ≠ [] → vTxid.length ≤ MAX_BLOCK_WEIGHT / MIN_TRANSACTION_WEIGHT →
      (∀ k i a b, ((levelUp hash)^[k] vTxid)[2 * i]? = some a →
        ((levelUp hash)^[k] vTxid)[2 * i + 1]? = some b → a ≠ b) →
      ∃ tree, CPartialMerkleTree.unserialize
          (CPartialMerkleTree.build hash 0 vTxid vMatch).serialize = .ok (tree, []) ∧
        extractMatches hash 0 tree vnIndex =
          ((computeMerkleRoot hash 0 vTxid).1, (matchedLeaves vTxid vMatch).map Prod.fst,
            vnIndex ++ (matchedLeaves vTxid vMatch).map Prod.snd)) ∧
    ∀ (H : Type) [DecidableEq H] (hash : H → H → H) (null : H) (tree : CPartialMerkleTree H)
      (vTxid : List H) (vnIndex : List Nat), (∀ a b c d, hash a b = hash c d → a = c ∧ b = d) →
      vTxid.length = tree.nTransactions →
      (extractMatches hash null tree vnIndex).1 = (computeMerkleRoot hash null vTxid).1 →
      (computeMerkleRoot hash null vTxid).1 ≠ null →
      ∃ reported : List (H × Nat), (∀ leaf ∈ reported, vTxid[leaf.2]? = some leaf.1) ∧
        (extractMatches hash null tree vnIndex).2.1 = reported.map Prod.fst ∧
        (extractMatches hash null tree vnIndex).2.2 = vnIndex ++ reported.map Prod.snd := by
  constructor
  · intro hash vTxid vMatch vnIndex hne hfew hdistinct
    generalize hbuilt : build hash 0 vTxid vMatch = built
    obtain ⟨hn, hhashes, hbits⟩ := build_length hne hfew hbuilt
    have hread := unserialize_serialize hn hhashes hbits []
    rw [append_nil] at hread
    refine ⟨_, hread, ?_⟩
    subst hbuilt
    apply extractMatches_built hne hfew hdistinct
    · rfl
    · rfl
    · rfl
    · rw [length_append, length_replicate]
      omega
    · rfl
  · intro H _ hash null tree vTxid vnIndex hinj hn hroot hnull
    rw [← hroot] at hnull
    obtain ⟨hpos, hextract⟩ := extractMatches_of_ne_null hnull
    have hne : vTxid ≠ [] := by
      rintro rfl
      exact hpos hn.symm
    rw [hextract, computeMerkleRoot_eq_calcHash hne, hn] at hroot
    rw [hextract]
    exact traverseAndExtract_sound hinj hn.symm
      (calcTreeWidth_pos (Nat.pos_of_ne_zero hpos) _) hroot

/-- The second of two transactions is matched and found, also in a tree of hashes. -/
theorem partialMerkleTree_complete_and_sound_pair : (∃ tree, CPartialMerkleTree.unserialize
        (CPartialMerkleTree.build (fun a b => a + b) 0 [(1 : Uint256), 2] [false, true]).serialize =
          .ok (tree, []) ∧
      (extractMatches (fun a b => a + b) 0 tree []).2 = ([2], [1])) ∧
    ∃ reported :
      List (HashTree × Nat),
      (∀ leaf ∈ reported, [HashTree.leaf 1, .leaf 2][leaf.2]? = some leaf.1) ∧
      reported.map Prod.snd = [1] := by
  constructor
  · obtain ⟨tree, hread, hextract⟩ :=
      partialMerkleTree_complete_and_sound.1 (fun a b => a + b) [1, 2]
      [false, true] [] (cons_ne_nil _ _) (by decide) (by
        intro k i a b ha hb
        have hlength := length_iterate_levelUp (fun a b : Uint256 => a + b) 0 [1, 2] k
        have hi := (List.getElem?_eq_some_iff.mp hb).1
        rw [hlength, lt_calcTreeWidth_iff] at hi
        cases k with
        | zero =>
          obtain rfl : i = 0 := by
            simp only [length_cons, length_nil] at hi
            omega
          cases ha
          cases hb
          decide
        | succ k =>
          have hpow : 1 ≤ 2 ^ k := Nat.one_le_two_pow
          have hpow' : (2 * i + 1) * 2 ^ (k + 1) = 4 * i * 2 ^ k + 2 * 2 ^ k := by ring
          rw [length_cons, length_cons, length_nil] at hi
          omega)
    exact ⟨tree, hread, congrArg Prod.snd hextract⟩
  · have hheight : treeHeight 2 0 = 1 := by
      rw [treeHeight_of_wide (by decide), treeHeight_of_narrow (by decide)]
    have hvalue : extractMatches .node (.leaf 0)
        ⟨2, [true, false, true], [leaf 1, .leaf 2], false⟩ [] =
          (.node (.leaf 1) (.leaf 2), [.leaf 2], [1]) := by
      simp only [extractMatches, hheight]
      rfl
    have hroot : (computeMerkleRoot .node (.leaf 0) [leaf 1, .leaf 2]).1 = .node (.leaf 1)
        (.leaf 2) := by
      simp [computeMerkleRoot, merkleLoop, levelUp, padOdd, sha256D64]
    obtain ⟨reported, hreported, -, hindices⟩ :=
      partialMerkleTree_complete_and_sound.2 HashTree .node (.leaf 0)
      ⟨2, [true, false, true], [.leaf 1, .leaf 2], false⟩ [.leaf 1, .leaf 2] []
      (fun _ _ _ _ => node.inj) rfl (by rw [hvalue, hroot])
        (by rw [hroot]; exact HashTree.noConfusion)
    rw [hvalue] at hindices
    exact ⟨reported, hreported, hindices.symm⟩

/-- A tree with one transaction and a superfluous byte of bits: the extraction fails with the null
hash, which is the root of a block whose one transaction is the null hash, and another transaction
is reported. -/
theorem extractMatches_null_root :
    ∃ tree : CPartialMerkleTree HashTree, [HashTree.leaf 0].length = tree.nTransactions ∧
      (extractMatches .node (.leaf 0) tree []).1 = (computeMerkleRoot .node (.leaf 0) [.leaf 0]).1 ∧
      (extractMatches .node (.leaf 0) tree []).2 = ([.leaf 1], [0]) := by
  have hheight : treeHeight 1 0 = 0 := treeHeight_of_narrow (by decide)
  have hvalue : extractMatches .node (.leaf 0)
      ⟨1, true :: replicate 15 false, [leaf 1], false⟩ [] = (.leaf 0, [.leaf 1], [0]) := by
    simp only [extractMatches, hheight]
    rfl
  have hroot : (computeMerkleRoot .node (.leaf 0) [leaf 0]).1 = .leaf 0 := by
    simp [computeMerkleRoot, merkleLoop]
  refine ⟨⟨1, true :: replicate 15 false, [.leaf 1], false⟩, rfl, ?_, ?_⟩
  · rw [hvalue, hroot]
  · rw [hvalue]

end BtcSharp
