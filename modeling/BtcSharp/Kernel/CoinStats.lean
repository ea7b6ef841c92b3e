/-
# Statistics of the coin set

`ComputeUTXOStats` of `kernel/coinstats.cpp` with the hash type `MUHASH`: the cursor over the
coins is a list, whose entries are gathered by transaction and then counted and hashed. Every coin
is counted once, as long as the cursor yields no outpoint twice.

MuHash multiplies numbers modulo a prime that it derives from the bytes of a coin. Here they are
the elements of a commutative group, so that none of them is zero.
-/

import BtcSharp.Validation.Block

namespace BtcSharp

/-! ## MuHash -/

/-- What MuHash asks of its number format and of the hash functions. -/
structure MuHashEnv (G : Type) where
  /-- `MuHash3072::ToNum3072`. -/
  toNum3072 : List UInt8 → G
  /-- SHA-256 of the bytes of a number. -/
  digest : G → Uint256

structure MuHash3072 (G : Type) where
  m_numerator : G
  m_denominator : G

namespace MuHash3072

variable {G : Type} [CommGroup G]

/-- The default constructor. -/
def empty : MuHash3072 G := ⟨1, 1⟩

def insert (env : MuHashEnv G) (muhash : MuHash3072 G) (bytes : List UInt8) : MuHash3072 G :=
  { muhash with m_numerator := muhash.m_numerator * env.toNum3072 bytes }

def remove (env : MuHashEnv G) (muhash : MuHash3072 G) (bytes : List UInt8) : MuHash3072 G :=
  { muhash with m_denominator := muhash.m_denominator * env.toNum3072 bytes }

/-- `Finalize`: the digest, and the object it leaves. -/
def finalize (env : MuHashEnv G) (muhash : MuHash3072 G) : Uint256 × MuHash3072 G :=
  (env.digest (muhash.m_numerator / muhash.m_denominator),
    ⟨muhash.m_numerator / muhash.m_denominator, 1⟩)

end MuHash3072

/-! ## Coins -/

def getBogoSize (script_pub_key : CScript) : Nat := 32 + 4 + 4 + 8 + 2 + script_pub_key.length

def txOutSer (outpoint : COutPoint) (coin : Coin) : List UInt8 :=
  outPointCodec.write outpoint ++
    uint32Codec.write (UInt32.ofNat (2 * coin.nHeight + coin.fCoinBase.toNat)) ++
    txOutCodec.write coin.out

section

variable {G : Type} [CommGroup G] (env : MuHashEnv G)

def applyCoinHash (muhash : MuHash3072 G) (outpoint : COutPoint) (coin : Coin) : MuHash3072 G :=
  muhash.insert env (txOutSer outpoint coin)

def removeCoinHash (muhash : MuHash3072 G) (outpoint : COutPoint) (coin : Coin) : MuHash3072 G :=
  muhash.remove env (txOutSer outpoint coin)

end

/-! ## `ComputeUTXOStats` -/

/-- `CCoinsStats`. Counts are unsigned and amounts signed numbers of 64 bits. -/
structure CCoinsStats where
  nHeight : Nat
  hashBlock : Uint256
  nTransactions : BitVec 64 := 0
  nTransactionOutputs : BitVec 64 := 0
  nBogoSize : BitVec 64 := 0
  hashSerialized : Uint256 := 0
  /-- The total amount, or nothing if an overflow occurred calculating it. -/
  total_amount : Option (BitVec 64) := some 0
  coins_count : BitVec 64 := 0
  index_used : Bool := false
  total_subsidy : BitVec 64 := 0
  total_unspendable_amount : BitVec 64 := 0
  total_prevout_spent_amount : BitVec 64 := 0
  total_new_outputs_ex_coinbase_amount : BitVec 64 := 0
  total_coinbase_amount : BitVec 64 := 0
  total_unspendables_genesis_block : BitVec 64 := 0
  total_unspendables_bip30 : BitVec 64 := 0
  total_unspendables_scripts : BitVec 64 := 0
  total_unspendables_unclaimed_rewards : BitVec 64 := 0

/-- `CheckedAdd` on amounts. -/
def checkedAdd (i j : BitVec 64) : Option (BitVec 64) :=
  if i.saddOverflow j then none else some (i + j)

/-- The outputs of a transaction by their index, as `std::map` keeps them. -/
abbrev OutputMap := List (UInt32 × Coin)

/-- The assignment `outputs[n] = coin`. -/
def OutputMap.assign (n : UInt32) (coin : Coin) : OutputMap → OutputMap
  | [] => [(n, coin)]
  | entry :: rest =>
    if n < entry.1 then (n, coin) :: entry :: rest
    else if n = entry.1 then (n, coin) :: rest
    else entry :: assign n coin rest

/-- One iteration of `ApplyStats`. -/
def CCoinsStats.applyOutput (stats : CCoinsStats) (output : UInt32 × Coin) : CCoinsStats :=
  { stats with
    nTransactionOutputs := stats.nTransactionOutputs + 1
    total_amount := stats.total_amount.bind fun amount =>
      checkedAdd amount (BitVec.ofInt 64 output.2.out.nValue)
    nBogoSize := stats.nBogoSize + BitVec.ofNat 64 (getBogoSize output.2.out.scriptPubKey) }

/-- `ApplyStats`. It is only called with outputs. -/
def applyStats (stats : CCoinsStats) (outputs : OutputMap) : CCoinsStats :=
  outputs.foldl CCoinsStats.applyOutput { stats with nTransactions := stats.nTransactions + 1 }

/-- The variables of the loop over the cursor. -/
structure CoinScan (G : Type) where
  stats : CCoinsStats
  hash_obj : MuHash3072 G
  prevkey : Uint256
  outputs : OutputMap

section

variable {G : Type} [CommGroup G] (env : MuHashEnv G)

def applyHash (hash_obj : MuHash3072 G) (hash : Uint256) (outputs : OutputMap) : MuHash3072 G :=
  outputs.foldl (fun hash_obj output => applyCoinHash env hash_obj ⟨hash, output.1⟩ output.2)
    hash_obj

namespace CoinScan

/-- Count and hash the outputs gathered so far. -/
def flush (scan : CoinScan G) : CoinScan G :=
  { scan with
    stats := applyStats scan.stats scan.outputs
    hash_obj := applyHash env scan.hash_obj scan.prevkey scan.outputs
    outputs := [] }

/-- One iteration of the loop. -/
def visit (scan : CoinScan G) (entry : COutPoint × Coin) : CoinScan G :=
  let scan := if !scan.outputs.isEmpty && entry.1.hash != scan.prevkey then scan.flush env else scan
  { scan with
    prevkey := entry.1.hash
    outputs := scan.outputs.assign entry.1.n entry.2
    stats := { scan.stats with coins_count := scan.stats.coins_count + 1 } }

end CoinScan

/-- `ComputeUTXOStats`, given the best block of the view and what its cursor runs over. -/
def computeUTXOStats (pindex : CBlockIndex) (cursor : List (COutPoint × Coin)) : CCoinsStats :=
  let start : CoinScan G :=
    { stats := { nHeight := pindex.nHeight, hashBlock := pindex.getBlockHash }
      hash_obj := .empty, prevkey := 0, outputs := [] }
  let scan := cursor.foldl (CoinScan.visit env) start
  let scan := if scan.outputs.isEmpty then scan else scan.flush env
  { scan.stats with hashSerialized := (scan.hash_obj.finalize env).1 }

end

/-! ## A full scan -/

open List

/-- The value of a list of coins. -/
def coinsValue (coins : List (COutPoint × Coin)) : ℤ := (coins.map (·.2.out.nValue)).sum

/-- The coins are worth something, and together no more than an amount can hold. -/
structure Countable (coins : List (COutPoint × Coin)) : Prop where
  nonneg : ∀ entry ∈ coins, 0 ≤ entry.2.out.nValue
  fits : coinsValue coins < 2 ^ 63

theorem coinsValue_append (first second : List (COutPoint × Coin)) :
    coinsValue (first ++ second) = coinsValue first + coinsValue second := by
  rw [coinsValue, map_append, sum_append]
  rfl

theorem coinsValue_nonneg {coins : List (COutPoint × Coin)} (h : ∀ entry ∈ coins,
    0 ≤ entry.2.out.nValue) : 0 ≤ coinsValue coins := by
  apply List.sum_nonneg
  intro value hvalue
  obtain ⟨entry, hentry, rfl⟩ := mem_map.mp hvalue
  exact h entry hentry

variable {first second : List (COutPoint × Coin)}

theorem Countable.left (h : Countable (first ++ second)) : Countable first := by
  have hsecond :=
    coinsValue_nonneg fun entry hentry => h.nonneg entry (mem_append_right first hentry)
  have hfits := h.fits
  rw [coinsValue_append] at hfits
  constructor
  · exact fun entry hentry => h.nonneg entry (mem_append_left _ hentry)
  · omega

theorem Countable.perm (h : Countable first) (hperm : first.Perm second) : Countable second := by
  constructor
  · exact fun entry hentry => h.nonneg entry (hperm.mem_iff.mpr hentry)
  have hsum : coinsValue first = coinsValue second := (hperm.map _).sum_eq
  rw [← hsum]
  exact h.fits

/-- Amounts that fit are added. -/
theorem checkedAdd_ofInt {a b : ℤ} (ha : 0 ≤ a) (hb : 0 ≤ b) (hfits : a + b < 2 ^ 63) :
    checkedAdd (BitVec.ofInt 64 a) (BitVec.ofInt 64 b) = some (BitVec.ofInt 64 (a + b)) := by
  have htoInt : ∀ c : ℤ, 0 ≤ c → c < 2 ^ 63 → (BitVec.ofInt 64 c).toInt = c := by
    intro c hlow hhigh
    apply BitVec.toInt_ofInt_eq_self <;> omega
  have hover : (BitVec.ofInt 64 a).saddOverflow (BitVec.ofInt 64 b) = false := by
    rw [BitVec.saddOverflow, htoInt a ha (by omega), htoInt b hb (by omega)]
    simp only [Bool.or_eq_false_iff, decide_eq_false_iff_not]
    omega
  rw [checkedAdd, if_neg (by rw [hover]; exact Bool.false_ne_true), BitVec.ofInt_add]

namespace OutputMap

/-- A new index is put in. -/
theorem assign_perm (coin : Coin) {n : UInt32} {outputs : OutputMap}
    (hnew : n ∉ outputs.map Prod.fst) :
    (OutputMap.assign n coin outputs).Perm ((n, coin) :: outputs) := by
  induction outputs with
  | nil => exact .refl _
  | cons entry rest ih =>
    rw [map_cons, mem_cons, not_or] at hnew
    rw [assign]
    split
    · exact .refl _
    · rw [if_neg hnew.1]
      exact ((ih hnew.2).cons entry).trans (.swap _ _ _)

end OutputMap

section

variable {G : Type} [CommGroup G] {env : MuHashEnv G}

namespace CoinScan

/-- The coins that are gathered and not yet counted. -/
def pending (scan : CoinScan G) : List (COutPoint × Coin) :=
  scan.outputs.map fun output => (⟨scan.prevkey, output.1⟩, output.2)

/-- The coins that are counted. -/
structure Counted (env : MuHashEnv G) (stats : CCoinsStats) (hash_obj : MuHash3072 G)
    (coins : List (COutPoint × Coin)) : Prop where
  outputs : stats.nTransactionOutputs = BitVec.ofNat 64 coins.length
  bogo :
    stats.nBogoSize = BitVec.ofNat 64
      (coins.map fun entry => getBogoSize entry.2.out.scriptPubKey).sum
  amount : stats.total_amount = some (BitVec.ofInt 64 (coinsValue coins))
  numerator :
    hash_obj.m_numerator = (coins.map fun entry => env.toNum3072 (txOutSer entry.1 entry.2)).prod
  denominator : hash_obj.m_denominator = 1

/-- One more coin. -/
theorem Counted.applyOutput {stats : CCoinsStats} {hash_obj : MuHash3072 G}
    {coins : List (COutPoint × Coin)} (h : Counted env stats hash_obj coins) (hash : Uint256)
    (output : UInt32 × Coin) (hcount : Countable (coins ++ [(⟨hash, output.1⟩, output.2)])) :
    Counted env (stats.applyOutput output) (applyCoinHash env hash_obj ⟨hash, output.1⟩ output.2)
      (coins ++ [(⟨hash, output.1⟩, output.2)]) where
  outputs := by
    show stats.nTransactionOutputs + 1 = _
    rw [h.outputs, length_append, BitVec.ofNat_add]
    rfl
  bogo := by
    show stats.nBogoSize + _ = _
    rw [h.bogo, map_append, sum_append, BitVec.ofNat_add, map_singleton, sum_singleton]
  amount := by
    have hvalue : coinsValue [((⟨hash, output.1⟩ : COutPoint), output.2)] = output.2.out.nValue :=
      sum_singleton
    have hfits := hcount.fits
    rw [coinsValue_append, hvalue] at hfits
    show stats.total_amount.bind _ = _
    rw [h.amount, coinsValue_append, hvalue]
    apply checkedAdd_ofInt
    · exact coinsValue_nonneg hcount.left.nonneg
    · exact hcount.nonneg _ (mem_append_right _ (mem_singleton.mpr rfl))
    · exact hfits
  numerator := by
    show hash_obj.m_numerator * _ = _
    rw [h.numerator, map_append, prod_append, map_singleton, prod_singleton]
  denominator := h.denominator

/-- The coins of a transaction. -/
theorem Counted.applyOutputs {stats : CCoinsStats} {hash_obj : MuHash3072 G}
    {coins : List (COutPoint × Coin)} (h : Counted env stats hash_obj coins) {hash : Uint256}
    {outputs : OutputMap}
      (hcount : Countable (coins ++ outputs.map fun output => (⟨hash, output.1⟩, output.2))) :
    Counted env (outputs.foldl CCoinsStats.applyOutput stats) (applyHash env hash_obj hash outputs)
      (coins ++ outputs.map fun output => (⟨hash, output.1⟩, output.2)) := by
  induction outputs using reverseRecOn with
  | nil =>
    rw [map_nil, append_nil]
    exact h
  | append_singleton before output ih =>
    rw [map_append, ← append_assoc] at hcount ⊢
    rw [applyHash, foldl_append, foldl_append]
    exact (ih hcount.left).applyOutput hash output hcount

/-- What the cursor has passed. -/
def Passed (env : MuHashEnv G) (scan : CoinScan G) (visited : List (COutPoint × Coin)) : Prop :=
  ∃ coins, Counted env scan.stats scan.hash_obj coins ∧ (coins ++ scan.pending).Perm visited

theorem Passed.flush {scan : CoinScan G} {visited : List (COutPoint × Coin)}
    (h : scan.Passed env visited)
    (hcount : Countable visited) : (scan.flush env).Passed env visited := by
  obtain ⟨coins, hcoins, hperm⟩ := h
  have hstarted : Counted env { scan.stats with nTransactions := scan.stats.nTransactions + 1 }
      scan.hash_obj coins := { hcoins with }
  refine ⟨coins ++ scan.pending, hstarted.applyOutputs (hcount.perm hperm.symm), ?_⟩
  show (coins ++ scan.pending ++ []).Perm visited
  rw [append_nil]
  exact hperm

variable {scan : CoinScan G} {visited : List (COutPoint × Coin)} {entry : COutPoint × Coin}

/-- A coin joins those of its transaction. -/
theorem Passed.gather (h : scan.Passed env visited) (hnew : entry.1 ∉ visited.map Prod.fst)
    (hkey : scan.outputs = [] ∨ entry.1.hash = scan.prevkey) :
    Passed env { scan with
        prevkey := entry.1.hash
        outputs := scan.outputs.assign entry.1.n entry.2
        stats := { scan.stats with coins_count := scan.stats.coins_count + 1 } }
      (visited ++ [entry]) := by
  obtain ⟨coins, hcoins, hperm⟩ := h
  have hpending :
      scan.pending = scan.outputs.map fun output => (⟨entry.1.hash, output.1⟩, output.2) := by
    rcases hkey with hnil | hsame
    · rw [pending, hnil]
      rfl
    · rw [pending, hsame]
  have hindex : entry.1.n ∉ scan.outputs.map Prod.fst := by
    intro hmem
    obtain ⟨output, houtput, hn⟩ := mem_map.mp hmem
    have hthere : ((⟨entry.1.hash, output.1⟩ : COutPoint), output.2) ∈ scan.pending := by
      rw [hpending]
      exact mem_map.mpr ⟨output, houtput, rfl⟩
    have hpassed := hperm.mem_iff.mp (mem_append_right coins hthere)
    apply hnew
    have hkeyed := mem_map_of_mem (f := Prod.fst) hpassed
    rw [hn] at hkeyed
    exact hkeyed
  have hassigned := (OutputMap.assign_perm entry.2 hindex).map
    fun output => ((⟨entry.1.hash, output.1⟩ : COutPoint), output.2)
  refine ⟨coins, { hcoins with }, ?_⟩
  rw [hpending] at hperm
  have hcons : (coins ++ (entry :: scan.outputs.map fun output =>
      ((⟨entry.1.hash, output.1⟩ : COutPoint), output.2))).Perm (visited ++ [entry]) :=
    perm_middle.trans ((hperm.cons entry).trans (perm_append_singleton entry visited).symm)
  exact (hassigned.append_left coins).trans hcons

theorem Passed.visit
    (h : scan.Passed env visited) (hcount : Countable visited)
      (hnew : entry.1 ∉ visited.map Prod.fst) :
    (scan.visit env entry).Passed env (visited ++ [entry]) := by
  unfold CoinScan.visit
  split
  · exact (h.flush hcount).gather hnew (.inl rfl)
  next hstay =>
  apply h.gather hnew
  cases houtputs : scan.outputs with
  | nil => exact .inl rfl
  | cons output rest =>
    right
    simpa [houtputs] using hstay

theorem Passed.foldl (h : scan.Passed env []) (hcount : Countable visited)
    (hnodup : (visited.map Prod.fst).Nodup) :
    (visited.foldl (CoinScan.visit env) scan).Passed env visited := by
  induction visited using reverseRecOn with
  | nil => exact h
  | append_singleton before entry ih =>
    rw [map_append] at hnodup
    have hnew := fun hmem => (nodup_append.mp hnodup).2.2 _ hmem _ mem_cons_self rfl
    rw [foldl_append]
    exact (ih hcount.left (nodup_append.mp hnodup).1).visit hcount.left hnew

end CoinScan

/-- What a scan finds. -/
structure CCoinsStats.Scanned (env : MuHashEnv G) (stats : CCoinsStats)
    (coins : List (COutPoint × Coin)) : Prop where
  outputs : stats.nTransactionOutputs = BitVec.ofNat 64 coins.length
  bogo :
    stats.nBogoSize = BitVec.ofNat 64
      (coins.map fun entry => getBogoSize entry.2.out.scriptPubKey).sum
  amount : stats.total_amount = some (BitVec.ofInt 64 (coinsValue coins))
  hash : stats.hashSerialized =
    env.digest (coins.map fun entry => env.toNum3072 (txOutSer entry.1 entry.2)).prod

/-- `ComputeUTXOStats` counts what the cursor yields. -/
theorem computeUTXOStats_scanned {cursor : List (COutPoint × Coin)} (hcount : Countable cursor)
    (hnodup : (cursor.map Prod.fst).Nodup) (pindex : CBlockIndex) :
    (computeUTXOStats env pindex cursor).Scanned env cursor := by
  have hstart : CoinScan.Passed env
      { stats := { nHeight := pindex.nHeight, hashBlock := pindex.getBlockHash }
        hash_obj := .empty, prevkey := 0, outputs := [] } [] :=
    ⟨[], ⟨rfl, rfl, rfl, rfl, rfl⟩, .refl _⟩
  have hpassed := hstart.foldl hcount hnodup
  unfold computeUTXOStats
  simp only
  generalize cursor.foldl (CoinScan.visit env) _ = scan at hpassed
  obtain ⟨last, hlast, hdone, hpending⟩ : ∃ last, last =
      (if scan.outputs.isEmpty then scan else scan.flush env) ∧ last.Passed env cursor ∧
      last.pending = [] := by
    refine ⟨_, rfl, ?_⟩
    split
    · next hempty =>
      refine ⟨hpassed, ?_⟩
      rw [CoinScan.pending, isEmpty_iff.mp hempty]
      rfl
    · exact ⟨hpassed.flush hcount, rfl⟩
  rw [← hlast]
  obtain ⟨coins, hcoins, hperm⟩ := hdone
  rw [hpending, append_nil] at hperm
  constructor
  · rw [← hperm.length_eq]
    exact hcoins.outputs
  · rw [← (hperm.map _).sum_eq]
    exact hcoins.bogo
  · have hvalue : coinsValue coins = coinsValue cursor := (hperm.map _).sum_eq
    rw [← hvalue]
    exact hcoins.amount
  · show env.digest (last.hash_obj.m_numerator / last.hash_obj.m_denominator) = _
    rw [hcoins.numerator, hcoins.denominator, div_one, (hperm.map _).prod_eq]

end

end BtcSharp
