/-
# When the statistics are exact

Along every sequence of appended blocks and rewinds no call of the index fails. Its statistics are
those of the chain exactly when the totals of every appended block fit their members: an amount that
does not is kept modulo `2 ^ 64`.
-/

import BtcSharp.Index.CoinStatsRuns
import Mathlib.Algebra.Group.PUnit

namespace BtcSharp

open Math List

/-! ## Numbers of 64 bits -/

namespace Total

/-- The number that a member holds: counts are unsigned and amounts signed. -/
def value : Total → BitVec 64 → ℤ
  | .m_transaction_output_count, bits => bits.toNat
  | .m_bogo_size, bits => bits.toNat
  | _, bits => bits.toInt

/-- The numbers that a member can hold. -/
def Fits : Total → ℤ → Prop
  | .m_transaction_output_count, number => 0 ≤ number ∧ number < 2 ^ 64
  | .m_bogo_size, number => 0 ≤ number ∧ number < 2 ^ 64
  | _, number => -2 ^ 63 ≤ number ∧ number < 2 ^ 63

/-- A member holds the numbers that fit, and only those. -/
theorem value_ofInt_iff (total : Total) (number : ℤ) :
    total.value (BitVec.ofInt 64 number) = number ↔ total.Fits number := by
  have hunsigned : ((BitVec.ofInt 64 number).toNat : ℤ) = number ↔ 0 ≤ number ∧
      number < 2 ^ 64 := by
    rw [BitVec.toNat_ofInt]
    omega
  have hsigned : (BitVec.ofInt 64 number).toInt = number ↔ -2 ^ 63 ≤ number ∧ number < 2 ^ 63 := by
    constructor
    · intro heq
      have hlow := BitVec.le_toInt (BitVec.ofInt 64 number)
      have hhigh := BitVec.toInt_lt (x := BitVec.ofInt 64 number)
      omega
    · intro hfits
      apply BitVec.toInt_ofInt_eq_self <;> omega
  cases total with
  | m_transaction_output_count | m_bogo_size => exact hunsigned
  | _ => exact hsigned

end Total

/-- The totals that `LookUpStats` returns. -/
def CCoinsStats.field (stats : CCoinsStats) : Total → Option (BitVec 64)
  | .m_transaction_output_count => some stats.nTransactionOutputs
  | .m_bogo_size => some stats.nBogoSize
  | .m_total_amount => stats.total_amount
  | .m_total_subsidy => some stats.total_subsidy
  | .m_total_unspendable_amount => some stats.total_unspendable_amount
  | .m_total_prevout_spent_amount => some stats.total_prevout_spent_amount
  | .m_total_new_outputs_ex_coinbase_amount => some stats.total_new_outputs_ex_coinbase_amount
  | .m_total_coinbase_amount => some stats.total_coinbase_amount
  | .m_total_unspendables_genesis_block => some stats.total_unspendables_genesis_block
  | .m_total_unspendables_bip30 => some stats.total_unspendables_bip30
  | .m_total_unspendables_scripts => some stats.total_unspendables_scripts
  | .m_total_unspendables_unclaimed_rewards => some stats.total_unspendables_unclaimed_rewards

namespace CoinStatsIndex

variable {G : Type} [CommGroup G]

/-! ## What is to hold -/

section

variable (menv : MuHashEnv G) (env : ChainEnv) (store : BlockStore)

/-- The index after `CustomAppend` with children of the current block and `CustomRewind` to
ancestors: the current block with its coin set, and the blocks that were appended. -/
inductive Run : CoinStatsIndex G → CBlockIndex → UtxoMap → List CBlockIndex → Prop
  | start : Run start [] (fun _ => none) []
  | append {index index' : CoinStatsIndex G} {current : CBlockIndex} {map after : UtxoMap}
      {appended : List CBlockIndex} {hash : Uint256} (run : Run index current map appended)
      (hvalid : ValidChain env store (hash :: current) after)
      (hlookup : store.lookup hash = some (hash :: current))
      (happend : customAppend env menv store (makeBlockInfo store (hash :: current))
        index = .ok index') :
      Run index' (hash :: current) after ((hash :: current) :: appended)
  | rewind {index index' : CoinStatsIndex G} {current target : CBlockIndex} {map before : UtxoMap}
      {appended : List CBlockIndex} (run : Run index current map appended)
      (hsuffix : target <:+ current) (hproper : target ≠ current)
      (hvalid : ValidChain env store target before)
      (hrewind : customRewind env menv store current.ref target.ref index = .ok index') :
      Run index' target before appended

/-- The digest of a coin set. -/
noncomputable def utxoDigest (map : UtxoMap) : Uint256 :=
  menv.digest
    (boundTotal (fun outpoint coin => Additive.ofMul (menv.toNum3072 (txOutSer outpoint coin)))
      map).toMul

/-- A cursor over a coin set yields each coin once. -/
structure IsCursor (cursor : List (COutPoint × Coin)) (map : UtxoMap) : Prop where
  nodup : (cursor.map Prod.fst).Nodup
  mem_iff : ∀ outpoint coin, (outpoint, coin) ∈ cursor ↔ map outpoint = some coin

/-- The statistics of the index are exact. -/
structure Exact (index : CoinStatsIndex G) (current : CBlockIndex) (map : UtxoMap)
    (appended : List CBlockIndex) : Prop where
  /-- The running totals are those of a full scan. -/
  scan : ∀ cursor, IsCursor cursor map →
    (computeUTXOStats menv current cursor).nTransactionOutputs =
        index.running.totals .m_transaction_output_count ∧
      (computeUTXOStats menv current cursor).total_amount = some
        (index.running.totals .m_total_amount) ∧
      (computeUTXOStats menv current cursor).nBogoSize = index.running.totals .m_bogo_size ∧
      (computeUTXOStats menv current cursor).hashSerialized =
      (index.running.m_muhash.finalize menv).1
  /-- What was spent and issued is what was created and lost. -/
  balance : (index.running.totals .m_total_prevout_spent_amount).toInt +
      (index.running.totals .m_total_subsidy).toInt =
    (index.running.totals .m_total_new_outputs_ex_coinbase_amount).toInt +
      (index.running.totals .m_total_coinbase_amount).toInt +
      (index.running.totals .m_total_unspendable_amount).toInt
  /-- `LookUpStats` returns the statistics of the block's own chain. -/
  lookUp : ∀ block ∈ appended, ∀ coins, ValidChain env store block coins → ∃ stats,
    index.lookUpStats block = some stats ∧ stats.nHeight = block.nHeight ∧
      stats.hashBlock = block.getBlockHash ∧ stats.hashSerialized = utxoDigest menv coins ∧
      ∀ total, (stats.field total).map total.value = some (chainTotals env store block coins total)

end

variable {menv : MuHashEnv G} {env : ChainEnv} {store : BlockStore} {index : CoinStatsIndex G}
  {current : CBlockIndex} {map : UtxoMap} {appended : List CBlockIndex}

/-- `LookUpOne` finds the record of every block that was appended. -/
theorem Records.lookUpOne_eq (h : index.Records menv env store current appended)
    {block : CBlockIndex}
    (hmem : block ∈ appended) :
      index.lookUpOne block.ref = some (recordOf menv env store block) := by
  obtain ⟨other, hother, hlevel, hholds⟩ := h.taken block hmem
  obtain ⟨hne, hknown⟩ := h.known block hmem
  have hat :
      index.heightIndex block.ref.height = some (other.getBlockHash,
      recordOf menv env store other) := by
    rw [← hholds, hlevel]
    rfl
  unfold lookUpOne
  rw [hat]
  by_cases hsame : other.getBlockHash = block.getBlockHash
  · have hblock : other = block := by
      have hfound := (h.known other hother).2
      rw [hsame, hknown] at hfound
      exact (Option.some.inj hfound).symm
    subst hblock
    exact if_pos (beq_self_eq_true _)
  have hstale : ¬ block <:+ current := by
    intro hsuffix
    have hown : index.heightIndex block.nHeight = _ := (h.active block hsuffix hne).2
    rw [show index.heightIndex block.nHeight = _ from hat] at hown
    exact hsame (Prod.mk.inj (Option.some.inj hown)).1
  have htest : ¬ (other.getBlockHash == block.ref.hash) = true :=
    fun heq => hsame (beq_iff_eq.mp heq)
  exact (if_neg htest).trans (h.stale block hmem hstale)

/-! ## Every run -/

/-- What a run leads to. -/
structure Reached (menv : MuHashEnv G) (env : ChainEnv) (store : BlockStore)
    (index : CoinStatsIndex G)
    (current : CBlockIndex) (map : UtxoMap) (appended : List CBlockIndex) : Prop where
  records : index.Records menv env store current appended
  valid : current ≠ [] → ValidChain env store current map
  empty : current = [] → map = fun _ => none

theorem Run.reached (run : Run menv env store index current map appended) :
    Reached menv env store index current map appended := by
  induction run with
  | start => exact ⟨records_start, absurd rfl, fun _ => rfl⟩
  | append run hvalid hlookup happend ih =>
    obtain ⟨index', happend', hrecords⟩ := ih.records.append hvalid hlookup
    rw [happend] at happend'
    obtain rfl := Except.ok.inj happend'
    exact ⟨hrecords, fun _ => hvalid, nofun⟩
  | @rewind index index' current target map before appended run hsuffix hproper hvalid hrewind ih =>
    have hcurrent := hsuffix.ne_nil hvalid.ne_nil
    obtain ⟨index', hrewind', hrecords⟩ :=
      ih.records.rewind (ih.valid hcurrent) hsuffix hvalid.ne_nil hproper
    rw [hrewind] at hrewind'
    obtain rfl := Except.ok.inj hrewind'
    exact ⟨hrecords, fun _ => hvalid, fun hnil => absurd hnil hvalid.ne_nil⟩

namespace Reached

variable (h : Reached menv env store index current map appended)

include h

/-- The running totals of the coin set are those of a scan. -/
theorem chainStat_coins :
      (∀ total ∈ [Total.m_transaction_output_count, .m_bogo_size, .m_total_amount],
      (chainStat menv env store current).1 total = coinTotals map total) ∧
    (chainStat menv env store current).2 = (utxoStat menv map).2 ∧ map.InMoneyRange := by
  by_cases hcurrent : current = []
  · obtain rfl := h.empty hcurrent
    subst hcurrent
    have hnone : utxoStat menv (fun _ => none) = 0 := boundTotal_empty
    have hfst := congrArg Prod.fst (utxoStat_eq menv fun _ => none)
    rw [hnone] at hfst
    refine ⟨fun total _ => ?_, ?_, nofun⟩
    · exact congrFun hfst total
    · rw [hnone]
      rfl
  · have hvalid := h.valid hcurrent
    refine ⟨fun total htotal => ?_, ?_, hvalid.inMoneyRange⟩
    · rw [hvalid.chainStat_fst]
      simp only [mem_cons, not_mem_nil, or_false] at htotal
      rcases htotal with rfl | rfl | rfl <;> exact add_zero _
    · rw [hvalid.chainStat_snd, utxoStat_eq]

theorem totals_eq (total : Total) :
    index.running.totals total = BitVec.ofInt 64 ((chainStat menv env store current).1 total) :=
  congrFun (congrArg Prod.fst h.records.stat) total

/-- The scan of the coin set agrees if its amount fits. -/
theorem scan_eq
    (hfits : Total.Fits .m_total_amount ((chainStat menv env store current).1 .m_total_amount))
    {cursor : List (COutPoint × Coin)} (hcursor : IsCursor cursor map) :
    (computeUTXOStats menv current cursor).nTransactionOutputs =
        index.running.totals .m_transaction_output_count ∧
      (computeUTXOStats menv current cursor).total_amount = some
        (index.running.totals .m_total_amount) ∧
      (computeUTXOStats menv current cursor).nBogoSize = index.running.totals .m_bogo_size ∧
      (computeUTXOStats menv current cursor).hashSerialized =
      (index.running.m_muhash.finalize menv).1 := by
  obtain ⟨hcoins, hhash, hrange⟩ := h.chainStat_coins
  have hcount : coinTotals map .m_transaction_output_count = cursor.length := by
    show boundTotal _ map = _
    rw [boundTotal_eq_sum hcursor.nodup hcursor.mem_iff]
    simp
  have hamount : coinTotals map .m_total_amount = coinsValue cursor :=
    boundTotal_eq_sum hcursor.nodup hcursor.mem_iff
  have hbogo : coinTotals map .m_bogo_size =
      ((cursor.map fun entry => getBogoSize entry.2.out.scriptPubKey).sum : ℕ) := by
    show boundTotal _ map = _
    rw [boundTotal_eq_sum hcursor.nodup hcursor.mem_iff, ← Nat.coe_castAddMonoidHom,
      map_list_sum, map_map]
    rfl
  have hdigest : (utxoStat menv map).2 =
      .ofMul (cursor.map fun entry => menv.toNum3072 (txOutSer entry.1 entry.2)).prod := by
    rw [utxoStat_eq]
    rw [boundTotal_eq_sum hcursor.nodup hcursor.mem_iff, ofMul_list_prod, map_map]
    rfl
  rw [hcoins .m_total_amount (by simp), hamount] at hfits
  have hcountable : Countable cursor := by
    refine ⟨fun entry hentry => ?_, hfits.2⟩
    exact (moneyRange_iff.mp (hrange _ _ ((hcursor.mem_iff entry.1 entry.2).mp hentry))).1
  have hscan := @computeUTXOStats_scanned G _ menv cursor hcountable hcursor.nodup current
  refine ⟨?_, ?_, ?_, ?_⟩
  · rw [hscan.outputs, h.totals_eq, hcoins .m_transaction_output_count (by simp), hcount,
      RunningStats.ofNat_eq_ofInt]
  · rw [hscan.amount, h.totals_eq, hcoins .m_total_amount (by simp), hamount]
  · rw [hscan.bogo, h.totals_eq, hcoins .m_bogo_size (by simp), hbogo, RunningStats.ofNat_eq_ofInt]
  · rw [hscan.hash, RunningStats.finalize_fst, h.records.stat, wrap_snd, hhash, hdigest]
    rfl

/-- `LookUpStats` is exact at a block if and only if the totals of its chain fit. -/
theorem lookUpStats_iff {block : CBlockIndex} {coins : UtxoMap} (hmem : block ∈ appended)
    (hvalid : ValidChain env store block coins) :
    (∃ stats, index.lookUpStats block = some stats ∧ stats.nHeight = block.nHeight ∧
      stats.hashBlock = block.getBlockHash ∧ stats.hashSerialized = utxoDigest menv coins ∧
      ∀ total, (stats.field total).map total.value = some
        (chainTotals env store block coins total)) ↔
    ∀ total, Total.Fits total (chainTotals env store block coins total) := by
  have hfound := h.records.lookUpOne_eq hmem
  obtain ⟨stats, hstats, hheight, hhash, hserialized, hfield⟩ :
      ∃ stats, index.lookUpStats block = some stats ∧
      stats.nHeight = block.nHeight ∧ stats.hashBlock = block.getBlockHash ∧
      stats.hashSerialized = utxoDigest menv coins ∧
      ∀ total,
      stats.field total = some (BitVec.ofInt 64 (chainTotals env store block coins total)) := by
    refine ⟨_, congrArg (Option.map _) hfound, rfl, rfl, ?_, ?_⟩
    · show menv.digest (chainStat menv env store block).2.toMul = _
      rw [hvalid.chainStat_snd]
      rfl
    intro total
    rw [← hvalid.chainStat_fst menv]
    cases total <;> rfl
  constructor
  · rintro ⟨other, hother, -, -, -, hexact⟩ total
    obtain rfl : stats = other := Option.some.inj (hstats.symm.trans hother)
    have hvalue := hexact total
    rw [hfield] at hvalue
    exact (Total.value_ofInt_iff total _).mp (Option.some.inj hvalue)
  intro hfits
  refine ⟨stats, hstats, hheight, hhash, hserialized, fun total => ?_⟩
  rw [hfield]
  exact congrArg some ((Total.value_ofInt_iff total _).mpr (hfits total))

/-- The statistics are exact if and only if the totals of all appended blocks fit. -/
theorem exact_iff : Exact menv env store index current map appended ↔
    ∀ block ∈ appended, ∀ coins, ValidChain env store block coins →
      ∀ total, Total.Fits total (chainTotals env store block coins total) := by
  constructor
  · intro hexact block hmem coins hvalid
    exact (h.lookUpStats_iff hmem hvalid).mp (hexact.lookUp block hmem coins hvalid)
  intro hfits
  have hcurrent : ∀ total, Total.Fits total ((chainStat menv env store current).1 total) := by
    intro total
    by_cases hnil : current = []
    · subst hnil
      show Total.Fits total 0
      cases total <;> exact ⟨by decide, by decide⟩
    · rw [(h.valid hnil).chainStat_fst]
      exact hfits current (h.records.active current suffix_rfl hnil).1 map (h.valid hnil) total
  constructor
  · exact fun cursor hcursor => h.scan_eq (hcurrent .m_total_amount) hcursor
  · have hbalance : imbalance (chainStat menv env store current).1 = 0 := by
      rw [← settle_chainStat, imbalance_settle]
    have hvalue : ∀ total, Total.value total (index.running.totals total) =
        (chainStat menv env store current).1 total := by
      intro total
      rw [h.totals_eq]
      exact (Total.value_ofInt_iff total _).mpr (hcurrent total)
    have hspent := hvalue .m_total_prevout_spent_amount
    have hsubsidy := hvalue .m_total_subsidy
    have hnew := hvalue .m_total_new_outputs_ex_coinbase_amount
    have hcoinbase := hvalue .m_total_coinbase_amount
    have hlost := hvalue .m_total_unspendable_amount
    simp only [Total.value] at hspent hsubsidy hnew hcoinbase hlost
    unfold imbalance at hbalance
    omega
  · exact fun block hmem coins hvalid => (h.lookUpStats_iff hmem hvalid).mpr
      (hfits block hmem coins hvalid)

end Reached

/-- In every run each further call succeeds, so that all assertions hold, and the statistics are
exact if and only if the totals of the appended blocks fit their members. -/
theorem coinStatsIndex_exact (run : Run menv env store index current map appended) :
    (∀ hash after, ValidChain env store (hash :: current) after →
      store.lookup hash = some (hash :: current) →
      ∃ index', customAppend env menv store (makeBlockInfo store (hash :: current))
        index = .ok index') ∧
    (∀ (target : CBlockIndex) before, target <:+ current → target ≠ current →
      ValidChain env store target before →
      ∃ index', customRewind env menv store current.ref target.ref index = .ok index') ∧
    (Exact menv env store index current map appended ↔
      ∀ block ∈ appended, ∀ coins, ValidChain env store block coins →
        ∀ total, Total.Fits total (chainTotals env store block coins total)) := by
  have h := run.reached
  refine ⟨?_, ?_, h.exact_iff⟩
  · intro hash after hvalid hlookup
    obtain ⟨index', happend, -⟩ := h.records.append hvalid hlookup
    exact ⟨index', happend⟩
  intro target before hsuffix hproper hvalid
  have hcurrent := hsuffix.ne_nil hvalid.ne_nil
  obtain ⟨index', hrewind, -⟩ := h.records.rewind (h.valid hcurrent) hsuffix hvalid.ne_nil hproper
  exact ⟨index', hrewind⟩

end CoinStatsIndex

/-! ## Payments that exceed an amount

One coin of fifty bitcoins is mined in the first block and moved by one payment in every block from
height 101 on. After two billion blocks, which is fewer than a height can count, the amount of all
payments is more than `2 ^ 63` and the total that the index keeps has become negative.
-/

open CTransaction Function

variable {height : Nat}

namespace LongChain

/-- The hash of a transaction is its lock time, which is serialized last. -/
def env : ChainEnv where
  params := ⟨210000, 1, 0, 0⟩
  curve := .empty
  hash256 := fun bytes =>
    match uint32Codec.read (bytes.drop (bytes.length - 4)) with
    | .ok (nLockTime, _) => BitVec.ofNat 256 nLockTime.toNat
    | .error _ => 0
  checkHeader := fun _ => true
  getLegacySigOpCount := fun _ => 0
  getTransactionSigOpCost := fun _ _ _ => 0
  sequenceLocks := fun _ _ _ => true
  checkInputScripts := fun _ _ _ => true

theorem txid_eq (tx : CTransaction) : env.txid tx = BitVec.ofNat 256 tx.nLockTime.toNat := by
  obtain ⟨front, hfront⟩ : ∃ front, serializeTransaction false tx = front ++ uint32Codec.write
    tx.nLockTime :=
    ⟨_, rfl⟩
  have hread := uint32Codec.reads tx.nLockTime trivial []
  rw [append_nil] at hread
  unfold ChainEnv.txid env
  simp only
  rw [hfront, length_append, length_uint32, Nat.add_sub_cancel, drop_left, hread]

/-- Fifty bitcoins that anyone can spend. -/
def paid : CTxOut := ⟨50 * COIN, [0x51]⟩

/-- Only the first coinbase claims its reward. -/
def coinbaseAt (height : Nat) : CTransaction where
  vin := [⟨⟨0, COutPoint.NULL_INDEX⟩, [0x51, 0x51], 0xffffffff, []⟩]
  vout := [if height = 1 then paid else ⟨0, [OP_RETURN]⟩]
  version := 1
  nLockTime := 1

/-- The height at which the coin was moved last. -/
def movedAt (height : Nat) : Nat := if height ≤ 100 then 1 else height

/-- Where the coin is. -/
def holder (height : Nat) : COutPoint := outPointAt (BitVec.ofNat 256 (movedAt height)) 0

/-- The coin. -/
def coinAt (height : Nat) : Coin := Coin.ofTxOut paid (movedAt height) (decide (height ≤ 100))

/-- The payment that moves it. -/
def payment (height : Nat) : CTransaction where
  vin := [⟨holder (height - 1), [], 0xffffffff, []⟩]
  vout := [paid]
  version := 1
  nLockTime := UInt32.ofNat height

def blockAt (height : Nat) : CBlock where
  header := ⟨1, 0, 0, 0, 0, 0⟩
  vtx := coinbaseAt height :: if height ≤ 100 then [] else [payment height]

def undoAt (height : Nat) : CBlockUndo := ⟨if height ≤ 100 then [] else [⟨[coinAt (height - 1)]⟩]⟩

def mapAt (height : Nat) : UtxoMap :=
  if height = 0 then fun _ => none else Function.update (fun _ => none) (holder height)
    (some (coinAt height))

def chainAt : Nat → CBlockIndex
  | 0 => [1]
  | height + 1 => BitVec.ofNat 256 (height + 2) :: chainAt height

def store : BlockStore where
  lookup := fun hash => some (chainAt (hash.toNat - 1))
  readBlock := fun pindex => some (blockAt pindex.nHeight)
  readBlockUndo := fun pindex => some (undoAt pindex.nHeight)

section

variable (height : Nat)

theorem length_chainAt : (chainAt height).length = height + 1 := by
  induction height with
  | zero => rfl
  | succ height ih => rw [chainAt, length_cons, ih]

theorem chainAt_ne_nil : chainAt height ≠ [] := by
  cases height <;> exact cons_ne_nil _ _

theorem nHeight_chainAt : (chainAt height).nHeight = height := by
  show (chainAt height).length - 1 = height
  rw [length_chainAt, Nat.add_sub_cancel]

theorem getBlockHash_chainAt : (chainAt height).getBlockHash = BitVec.ofNat 256 (height + 1) := by
  cases height <;> rfl

theorem readBlock_chainAt : store.readBlock (chainAt height) = some (blockAt height) :=
  congrArg (fun height => some (blockAt height)) (nHeight_chainAt height)

theorem readBlockUndo_chainAt : store.readBlockUndo (chainAt height) = some (undoAt height) :=
  congrArg (fun height => some (undoAt height)) (nHeight_chainAt height)

theorem checked_coinbaseAt : (coinbaseAt height).Checked := by
  unfold coinbaseAt
  split <;> exact ⟨by decide, by decide, by decide, by decide, by decide, by decide⟩

theorem length_payment : (serializeTransaction false (payment height)).length = 61 := by
  unfold serializeTransaction
  simp only [Bool.false_and]
  rfl

theorem checked_payment : (payment height).Checked where
  vin_ne_nil := cons_ne_nil _ _
  vout_ne_nil := cons_ne_nil _ _
  size := by
    rw [length_payment]
    decide
  values := by
    intro txout htxout
    obtain rfl := mem_singleton.mp htxout
    decide
  total := rfl
  nodup := nodup_singleton _

theorem isCoinBase_payment : (payment height).isCoinBase = false := Bool.and_false _

theorem spends_payment : (payment height).spends = [holder (height - 1)] := by
  rw [spends_of_not_isCoinBase (isCoinBase_payment height)]
  rfl

theorem creates_coinbaseAt : (coinbaseAt height).creates env height =
    if height = 1 then [(holder 1, coinAt 1)] else [] := by
  unfold coinbaseAt
  split
  · next hfirst =>
    subst hfirst
    rfl
  · rfl

end

theorem creates_payment (hheight : 100 < height) (hsmall : height < 2 ^ 32) :
    (payment height).creates env height = [(holder height, coinAt height)] := by
  have hmoved : movedAt height = height := if_neg (Nat.not_le.mpr hheight)
  have htxid : env.txid (payment height) = BitVec.ofNat 256 (movedAt height) := by
    rw [txid_eq, hmoved]
    exact congrArg _ (UInt32.toNat_ofNat_of_lt' hsmall)
  have hlate : decide (height ≤ 100) = false := decide_eq_false (Nat.not_le.mpr hheight)
  unfold creates
  rw [htxid, isCoinBase_payment]
  show [(holder height, Coin.ofTxOut paid height false)] = _
  rw [coinAt, hmoved, hlate]

theorem mapAt_holder {height : Nat} (hpos : 0 < height) :
    mapAt height (holder height) = some (coinAt height) := by
  rw [mapAt, if_neg (Nat.ne_of_gt hpos), update_self]

/-- The payment moves the coin. -/
theorem applies_payment (hheight : 100 < height) (hsmall : height < 2 ^ 32) :
    (payment height).Applies env height (mapAt (height - 1)) [coinAt (height - 1)] ∧
      applyWrites (mapAt (height - 1)) ((payment height).redoLog env height) = mapAt height := by
  have hbefore : mapAt (height - 1) =
      update (fun _ => none) (holder (height - 1)) (some (coinAt (height - 1))) := if_neg (by omega)
  have hunbound : applyWrites (mapAt (height - 1)) (unbindLog (payment height).spends) =
      fun _ => none := by
    rw [spends_payment, hbefore]
    show update (update _ _ _) _ _ = _
    rw [update_idem]
    exact update_eq_self _ _
  constructor
  · constructor
    · exact checked_payment height
    · rw [spends_payment, map_singleton, map_singleton, mapAt_holder (by omega)]
    · intro entry _
      rw [hunbound]
  rw [redoLog, applyWrites_append, hunbound, creates_payment hheight hsmall, mapAt,
    if_neg (by omega)]
  rfl

/-- The coinbase creates the coin in the first block, and nothing later. -/
theorem redo_coinbaseAt (hpos : 0 < height) :
    applyWrites (mapAt (height - 1)) ((coinbaseAt height).redoLog env height) =
      if height = 1 then mapAt 1 else mapAt (height - 1) := by
  rw [redoLog, creates_coinbaseAt]
  split
  · next hfirst =>
    subst hfirst
    rfl
  · rfl

theorem mapAt_early (hpos : 1 < height) (hearly : height ≤ 100) : mapAt
    (height - 1) = mapAt height := by
  have hmoved : movedAt (height - 1) = movedAt height := by
    rw [movedAt, movedAt, if_pos hearly, if_pos (by omega)]
  have hfirst : decide (height - 1 ≤ 100) = decide (height ≤ 100) := by
    rw [decide_eq_true hearly, decide_eq_true (by omega)]
  rw [mapAt, mapAt, if_neg (by omega), if_neg (by omega), holder, holder, coinAt, coinAt,
    hmoved, hfirst]

theorem applies_blockAt (hpos : 0 < height) (hsmall : height < 2 ^ 32) :
    ∃ rest fees, (blockAt height).Applies env height (undoAt height) (coinbaseAt height) rest fees
      (mapAt (height - 1)) (mapAt height) := by
  have hsubsidy := (getBlockSubsidy_range height env.params).1
  have hvalue : height ≠ 1 → (coinbaseAt height).valueOut = 0 := by
    intro hfirst
    unfold coinbaseAt
    rw [if_neg hfirst]
    rfl
  by_cases hearly : height ≤ 100
  · refine ⟨[], 0, ?_, rfl, checked_coinbaseAt height, ?_, ?_⟩
    · rw [blockAt, if_pos hearly]
    · have hmap : (if height = 1 then mapAt 1 else mapAt (height - 1)) = mapAt height := by
        split
        · next hfirst => rw [hfirst]
        · exact mapAt_early (by omega) hearly
      rw [redo_coinbaseAt hpos, hmap, undoAt, if_pos hearly]
      exact .nil _
    · by_cases hfirst : height = 1
      · subst hfirst
        decide
      rw [hvalue hfirst, zero_add]
      exact hsubsidy
  · obtain ⟨happlies, hmap⟩ := applies_payment (Nat.not_le.mp hearly) hsmall
    have hfirst : height ≠ 1 := by omega
    have hfee : (payment height).fee (mapAt (height - 1)) = 0 := by
      have hcoin := @mapAt_holder (height - 1) (by omega)
      simp [fee, valueIn, valueOut, inputValue, payment, hcoin, coinAt,
        Coin.ofTxOut]
    refine ⟨[payment height], (payment height).fee (mapAt (height - 1)) + 0, ?_, rfl,
      checked_coinbaseAt height, ?_, ?_⟩
    · rw [blockAt, if_neg hearly]
    · rw [redo_coinbaseAt hpos, if_neg hfirst, undoAt, if_neg hearly]
      apply AppliesAll.cons (isCoinBase_payment height) happlies
      rw [hmap]
      exact .nil _
    rw [hvalue hfirst, hfee, zero_add, zero_add]
    exact hsubsidy

theorem isBIP30Unspendable_chainAt (height : Nat) :
    isBIP30Unspendable (chainAt height) = false := by
  unfold isBIP30Unspendable
  rw [nHeight_chainAt]
  by_cases hfirst : height = 91722
  · subst hfirst
    decide
  by_cases hsecond : height = 91812
  · subst hsecond
    decide
  · rw [beq_eq_false_iff_ne.mpr hfirst, beq_eq_false_iff_ne.mpr hsecond]
    rfl

theorem validChain {height : Nat} (hsmall : height < 2 ^ 32) :
    ValidChain env store (chainAt height) (mapAt height) := by
  induction height with
  | zero => exact .genesis
  | succ height ih =>
    obtain ⟨_, _, happlies⟩ := applies_blockAt (Nat.succ_pos height) hsmall
    have hlength := length_chainAt height
    apply ValidChain.block (ih (by omega)) (readBlock_chainAt (height + 1))
      (readBlockUndo_chainAt (height + 1))
    · rw [hlength]
      exact happlies
    · intro entry hentry
      rw [hlength, creates_coinbaseAt] at hentry
      split at hentry
      · next hfirst =>
        obtain rfl : height = 0 := by omega
        rfl
      · cases hentry
    · exact isBIP30Unspendable_chainAt (height + 1)

theorem lookup_chainAt {height : Nat} (hsmall : height < 2 ^ 32) :
    store.lookup (chainAt height).getBlockHash = some (chainAt height) := by
  show some (chainAt ((chainAt height).getBlockHash.toNat - 1)) = _
  rw [getBlockHash_chainAt, BitVec.toNat_ofNat, Nat.mod_eq_of_lt (by omega), Nat.add_sub_cancel]

/-- MuHash with numbers that are all equal. -/
def menv : MuHashEnv Unit := ⟨fun _ => (), fun _ => 0⟩

/-- The blocks are appended one after the other. -/
theorem exists_run {height : Nat} (hsmall : height < 2 ^ 32) : ∃ index appended,
    CoinStatsIndex.Run menv env store index (chainAt height) (mapAt height)
      (chainAt height :: appended) := by
  induction height with
  | zero =>
    have hstart : CoinStatsIndex.Records menv env store .start [] [] := CoinStatsIndex.records_start
    obtain ⟨index, happend, -⟩ := hstart.append (validChain hsmall) (lookup_chainAt hsmall)
    exact ⟨index, [], .append .start (validChain hsmall) (lookup_chainAt hsmall) happend⟩
  | succ height ih =>
    obtain ⟨_, appended, hrun⟩ := ih (by omega)
    obtain ⟨index, happend, -⟩ :=
      hrun.reached.records.append (validChain hsmall) (lookup_chainAt hsmall)
    exact ⟨index, _, .append hrun (validChain hsmall) (lookup_chainAt hsmall) happend⟩

/-- The amount of all payments. -/
theorem spentOnChain_chainAt (height : Nat) :
    spentOnChain store (chainAt height) = (height - 100 : Nat) * (50 * COIN) := by
  induction height with
  | zero => rfl
  | succ height ih =>
    have hspent : spentOnChain store (chainAt (height + 1)) = _ :=
      spentOnChain_cons (chainAt_ne_nil height)
      (readBlock_chainAt (height + 1)) (readBlockUndo_chainAt (height + 1))
    rw [hspent, ih]
    by_cases hearly : height + 1 ≤ 100
    · have hbefore : height - 100 = 0 := by omega
      have hafter : height + 1 - 100 = 0 := by omega
      rw [undoAt, if_pos hearly, hbefore, hafter]
      rfl
    have hvalue : spentValue [⟨[coinAt (height + 1 - 1)]⟩] = 50 * COIN := rfl
    have hafter : height + 1 - 100 = height - 100 + 1 := by omega
    rw [undoAt, if_neg hearly, hvalue, hafter, Nat.cast_add]
    ring

/-- After two billion blocks the total of the payments has wrapped around. -/
theorem payments_overflow : ∃ index appended,
    CoinStatsIndex.Run menv env store index (chainAt 2000000000) (mapAt 2000000000) appended ∧
      (index.running.totals .m_total_prevout_spent_amount).toInt < 0 ∧
      ¬ CoinStatsIndex.Exact menv env store index (chainAt 2000000000) (mapAt 2000000000)
        appended := by
  have hsmall : 2000000000 < 2 ^ 32 := by decide
  obtain ⟨index, appended, hrun⟩ := exists_run hsmall
  have hreached := hrun.reached
  have hvalid := validChain hsmall
  have hspent :
      chainTotals env store (chainAt 2000000000) (mapAt 2000000000) .m_total_prevout_spent_amount =
      9999999500000000000 := by
    show 0 + spentOnChain store (chainAt 2000000000) = _
    rw [spentOnChain_chainAt]
    rfl
  refine ⟨index, _, hrun, ?_, ?_⟩
  · rw [hreached.totals_eq, hvalid.chainStat_fst, hspent]
    decide
  intro hexact
  have hfits := hreached.exact_iff.mp hexact _ mem_cons_self _ hvalid .m_total_prevout_spent_amount
  rw [hspent] at hfits
  exact absurd hfits.2 (by decide)

end LongChain

/-- A payment is appended, the chain is rewound to the block before, and the payment is appended
again. -/
theorem CoinStatsIndex.coinStatsIndex_exact_reorganised : ∃ index rewound again appended,
    Run LongChain.menv LongChain.env LongChain.store index (LongChain.chainAt 102)
      (LongChain.mapAt 102) appended ∧
    Run LongChain.menv LongChain.env LongChain.store rewound (LongChain.chainAt 101)
      (LongChain.mapAt 101) appended ∧
    customAppend LongChain.env LongChain.menv LongChain.store
      (makeBlockInfo LongChain.store (LongChain.chainAt 102)) rewound = .ok again := by
  have hvalid := @LongChain.validChain 101 (by decide)
  have hsuffix : LongChain.chainAt 101 <:+ LongChain.chainAt 102 := suffix_cons _ _
  have hproper : LongChain.chainAt 101 ≠ LongChain.chainAt 102 := fun heq => by
    have hlength := congrArg length heq
    rw [LongChain.length_chainAt, LongChain.length_chainAt] at hlength
    exact absurd hlength (by decide)
  obtain ⟨index, appended, hrun⟩ := @LongChain.exists_run 102 (by decide)
  obtain ⟨rewound, hrewind⟩ := (coinStatsIndex_exact hrun).2.1 _ _ hsuffix hproper hvalid
  have hrewound := Run.rewind hrun hsuffix hproper hvalid hrewind
  obtain ⟨again, happend⟩ :=
    (coinStatsIndex_exact hrewound).1 _ _ (@LongChain.validChain 102 (by decide))
    (@LongChain.lookup_chainAt 102 (by decide))
  exact ⟨index, rewound, again, _, hrun, hrewound, happend⟩

end BtcSharp
