/-
# The results of a package

What `AcceptPackage` reports for the transactions of a package, against the mempool that it
leaves. Transactions are tried alone, then those that failed are tried together, and then
the mempool is trimmed; the results of the three stages are merged into one for each
transaction.
-/

import BtcSharp.Validation.Subpackage

namespace BtcSharp

open List Math

namespace MemPoolAccept

open CTxMemPool MempoolAcceptResult

variable {env : AcceptEnv} {pool after : CTxMemPool} {txns : List CTransaction} {args : ATMPArgs}
  {tx : CTransaction} {submission : Submission}

/-! ## Trying transactions alone -/

/-- An id that is in the mempool after a change was there before, with the same transaction. -/
def KeepsTx (it : Uint256) (pool after : CTxMemPool) : Prop :=
  it ∈ after.txids → it ∈ pool.txids ∧ (after.entry it).tx = (pool.entry it).tx

variable {it : Uint256} {found : MempoolAcceptResult} {package_size : Nat}
    {progress : PackageProgress}

theorem KeepsTx.trans {middle : CTxMemPool} (h : KeepsTx it pool middle)
    (hlast : KeepsTx it middle after) : KeepsTx it pool after := fun hit =>
  ⟨(h (hlast hit).1).1, (hlast hit).2.trans (h (hlast hit).1).2⟩

theorem keepsTx_of_shrunk (h : Shrunk pool after) (it : Uint256) : KeepsTx it pool after :=
  fun hit => ⟨h.txids it hit, h.tx hit⟩

section

variable (h : Admitted env pool args txns submission) (hnodup : pool.txids.Nodup)
include h hnodup

theorem Admitted.keepsTx (hit : it ∉ txns.map env.mempool.txid) :
    KeepsTx it pool (finalizeSubpackage env pool submission) := by
  have happlied := h.applied hnodup
  intro hthere
  cases (happlied.mem it).mp hthere with
  | inl hold => exact ⟨hold.1, happlied.tx_old hold.1 hold.2⟩
  | inr hnew => exact absurd (h.additions_txid ▸ hnew) hit

theorem Admitted.tx_of_mem (htx : tx ∈ txns) :
    ((finalizeSubpackage env pool submission).entry (env.mempool.txid tx)).tx = tx := by
  obtain ⟨_, hws, rfl⟩ := mem_map.mp (h.checked.txs.2.symm ▸ htx)
  exact (h.applied hnodup).tx_new (mem_map_of_mem hws)

end

/-- A result that is true of a transaction as long as its id is in the mempool. -/
def Standing (env : AcceptEnv) (pool : CTxMemPool) (tx : CTransaction) : MempoolAcceptResult → Prop
  | .valid .. => env.mempool.txid tx ∈ pool.txids →
      env.wtxid (pool.entry (env.mempool.txid tx)).tx = env.wtxid tx
  | .mempoolEntry .. => env.mempool.txid tx ∈ pool.txids →
      env.wtxid (pool.entry (env.mempool.txid tx)).tx = env.wtxid tx
  | .differentWitness _ => True
  | .invalid .. => False

theorem Standing.keeps (h : Standing env pool tx found)
    (hkeeps : KeepsTx (env.mempool.txid tx) pool after) : Standing env after tx found := by
  cases found with
  | valid | mempoolEntry =>
    intro hit
    rw [(hkeeps hit).2]
    exact h (hkeeps hit).1
  | differentWitness => trivial
  | invalid => exact h.elim

/-- Transactions with one witness hash have one id. -/
def WtxidCommits (env : AcceptEnv) : Prop :=
  ∀ tx other, env.wtxid tx = env.wtxid other → env.mempool.txid tx = env.mempool.txid other

/-- What a result says of the mempool. -/
def Truth (env : AcceptEnv) (pool : CTxMemPool) (tx : CTransaction) : MempoolAcceptResult → Prop
  | .valid .. => env.mempool.txid tx ∈ pool.txids ∧ existsWtxid env pool (env.wtxid tx) = true
  | .mempoolEntry .. =>
    env.mempool.txid tx ∈ pool.txids ∧ existsWtxid env pool (env.wtxid tx) = true
  | .differentWitness _ => env.mempool.txid tx ∈ pool.txids
  | .invalid .. => env.mempool.txid tx ∉ pool.txids ∧ existsWtxid env pool (env.wtxid tx) = false

section Keyed

variable (hcommits : WtxidCommits env) (hkeyed : WellKeyed env.mempool pool)

include hcommits hkeyed

theorem existsWtxid_iff : existsWtxid env pool (env.wtxid tx) = true ↔
      env.mempool.txid tx ∈ pool.txids ∧
      env.wtxid (pool.entry (env.mempool.txid tx)).tx = env.wtxid tx := by
  unfold existsWtxid
  rw [any_eq_true]
  constructor
  · rintro ⟨it, hit, hsame⟩
    have hwtxid := of_decide_eq_true hsame
    have hid : env.mempool.txid tx = it := by
      rw [← hkeyed.hash it hit]
      exact hcommits _ _ hwtxid.symm
    rw [hid]
    exact ⟨hit, hwtxid⟩
  · rintro ⟨hit, hsame⟩
    exact ⟨_, hit, decide_eq_true hsame⟩

theorem alreadyThere_standing : Standing env pool tx (alreadyThere env pool tx) := by
  unfold alreadyThere
  split
  · next hexists => exact fun _ => ((existsWtxid_iff hcommits hkeyed).mp hexists).2
  · trivial

theorem truth_invalid (hnot : env.mempool.txid tx ∉ pool.txids) (hinvalid : found.IsInvalid) :
    Truth env pool tx found := by
  obtain ⟨_, _, rfl⟩ := hinvalid
  refine ⟨hnot, Bool.eq_false_of_not_eq_true fun hexists => ?_⟩
  exact hnot ((existsWtxid_iff hcommits hkeyed).mp hexists).1

theorem Standing.truth (hit : env.mempool.txid tx ∈ pool.txids) (h : Standing env pool tx found) :
    Truth env pool tx found := by
  cases found with
  | valid | mempoolEntry => exact ⟨hit, (existsWtxid_iff hcommits hkeyed).mpr ⟨hit, h hit⟩⟩
  | differentWitness => exact hit
  | invalid => exact h.elim

end Keyed

/-- What the first loop of `AcceptPackage` does with a transaction: it is there already, it is
submitted, or it fails and may be tried again. -/
inductive TriedAlone (env : AcceptEnv) (progress : PackageProgress) (tx : CTransaction) :
    PackageProgress → Prop
  | there (found : MempoolAcceptResult) (hstanding : Standing env progress.pool tx found) :
      TriedAlone env progress tx { progress with
        results_final := emplace progress.results_final (env.wtxid tx) found }
  | submitted (found : MempoolAcceptResult) (after : CTxMemPool) (hvalid : found.IsValid)
      (hkeyed : WellKeyed env.mempool after) (htx : (after.entry (env.mempool.txid tx)).tx = tx)
      (hothers : ∀ it, it ≠ env.mempool.txid tx → KeepsTx it progress.pool after) :
      TriedAlone env progress tx { progress with
        pool := after
        results_final := emplace progress.results_final (env.wtxid tx) found }
  | failed (found : MempoolAcceptResult) (quit_early : Bool) (txns_package_eval : List CTransaction)
      (hinvalid : found.IsInvalid) (hnot : env.mempool.txid tx ∉ progress.pool.txids)
      (hquit : progress.quit_early = true → quit_early = true)
      (heval : ∀ other, other ∈ txns_package_eval → other ∈ progress.txns_package_eval ∨ other = tx)
      (hkept : ∀ other ∈ progress.txns_package_eval, other ∈ txns_package_eval)
      (hretry : quit_early = true ∨ tx ∈ txns_package_eval) :
      TriedAlone env progress tx { progress with
        individual_results_nonfinal :=
          emplace progress.individual_results_nonfinal (env.wtxid tx) found
        quit_early := quit_early
        txns_package_eval := txns_package_eval }

theorem noteFailure_triedAlone (hinvalid : found.IsInvalid)
    (hnot : env.mempool.txid tx ∉ progress.pool.txids) :
    TriedAlone env progress tx (noteFailure env package_size tx found progress) := by
  unfold noteFailure
  split
  · exact .failed found true progress.txns_package_eval hinvalid hnot (fun _ => rfl)
      (fun _ => .inl) (fun _ h => h) (.inl rfl)
  exact .failed found progress.quit_early _ hinvalid hnot id
    (fun other h => (mem_append.mp h).imp_right mem_singleton.mp)
    (fun _ => mem_append_left _)
    (.inr (mem_append_right _ (mem_singleton.mpr rfl)))

theorem tryAlone_triedAlone (hcommits : WtxidCommits env) (htest : args.m_test_accept = false)
    (hkeyed : WellKeyed env.mempool progress.pool) :
    TriedAlone env progress tx (tryAlone env args package_size progress tx) := by
  unfold tryAlone
  dsimp only
  split
  · exact .there _ (alreadyThere_standing hcommits hkeyed)
  next hnew =>
  have hnot : env.mempool.txid tx ∉ progress.pool.txids := fun hit =>
    hnew (by rw [decide_eq_true hit, Bool.or_true])
  have hlookup : (acceptSubPackage env progress.pool args [tx]).2.m_tx_results.lookup
      (env.wtxid tx) =
      some (acceptSingleTransaction env progress.pool args.singleInPackageAccept tx).2 :=
    lookup_cons_self
  have hafter : (acceptSubPackage env progress.pool args [tx]).1 =
      (acceptSingleTransaction env progress.pool args.singleInPackageAccept tx).1 := rfl
  rw [hlookup, hafter]
  rcases @acceptSingleTransaction_spec env progress.pool args.singleInPackageAccept tx
    htest rfl with
    ⟨⟨state, feerate, hinvalid⟩, hsame⟩ | ⟨submission, hcheck, hvalid, hsubmitted⟩
  · rw [hinvalid, hsame]
    exact noteFailure_triedAlone ⟨_, _, rfl⟩ hnot
  have hadmitted := (checkSingle_ok hcheck).1
  have happlied := hadmitted.applied hkeyed.nodup
  rw [hsubmitted]
  obtain ⟨_, _, _, feerate, _, heq⟩ := hvalid
  rw [heq]
  exact .submitted _ _ ⟨_, _, _, _, _, rfl⟩ (happlied.wellKeyed hkeyed)
    (hadmitted.tx_of_mem hkeyed.nodup (mem_singleton.mpr rfl))
    fun it hne => hadmitted.keepsTx hkeyed.nodup fun hmem => hne (mem_singleton.mp hmem)

/-- There is a final result for a transaction. -/
def FinalFor (env : AcceptEnv) (progress : PackageProgress) (tx : CTransaction) : Prop :=
  ∃ found, progress.results_final.lookup (env.wtxid tx) = some found ∧
    Standing env progress.pool tx found

/-- A transaction failed on its own. -/
structure FailedFor (env : AcceptEnv) (progress : PackageProgress) (tx : CTransaction) : Prop where
  notFinal : progress.results_final.lookup (env.wtxid tx) = none
  notThere : env.mempool.txid tx ∉ progress.pool.txids
  result : ∃ found, progress.individual_results_nonfinal.lookup (env.wtxid tx) = some found ∧
    found.IsInvalid
  retry : progress.quit_early = true ∨ tx ∈ progress.txns_package_eval

/-- The transactions that the first loop has gone through. -/
structure Tried (env : AcceptEnv) (done : List CTransaction) (progress : PackageProgress) :
    Prop where
  keyed : WellKeyed env.mempool progress.pool
  nodup : (progress.results_final.map Prod.fst).Nodup
  finalKeys : ∀ wtxid ∈ progress.results_final.map Prod.fst, wtxid ∈ done.map env.wtxid
  failedKeys : ∀ wtxid ∈ progress.individual_results_nonfinal.map Prod.fst,
    wtxid ∈ done.map env.wtxid
  each : ∀ tx ∈ done, FinalFor env progress tx ∨ FailedFor env progress tx
  eval : ∀ tx ∈ progress.txns_package_eval, tx ∈ done ∧ FailedFor env progress tx

theorem nodup_done {done : List CTransaction} {f : CTransaction → Uint256}
    (h : ((done ++ [tx]).map f).Nodup) : (done.map f).Nodup ∧ f tx ∉ done.map f := by
  rw [map_append, nodup_append'] at h
  exact ⟨h.1, fun hmem => h.2.2 hmem mem_cons_self⟩

section TryAlone

variable {progress next : PackageProgress} {other : CTransaction}

section

variable (h : TriedAlone env progress tx next)

include h

/-- The transaction that is tried gets a result. -/
theorem TriedAlone.self (hfinal : progress.results_final.lookup (env.wtxid tx) = none)
    (hfailed : progress.individual_results_nonfinal.lookup (env.wtxid tx) = none) :
    FinalFor env next tx ∧ next.txns_package_eval = progress.txns_package_eval ∨
    FailedFor env next tx := by
  cases h with
  | there found hstanding => exact .inl ⟨⟨found, lookup_emplace_self hfinal, hstanding⟩, rfl⟩
  | submitted found after hvalid hkeyed htx hothers =>
    refine .inl ⟨⟨found, lookup_emplace_self hfinal, ?_⟩, rfl⟩
    obtain ⟨_, _, _, _, _, rfl⟩ := hvalid
    exact fun _ => congrArg env.wtxid htx
  | failed found quit_early eval hinvalid hnot hquit heval hkept hretry =>
    exact .inr ⟨hfinal, hnot, ⟨found, lookup_emplace_self hfailed, hinvalid⟩, hretry⟩

theorem TriedAlone.keyed (hkeyed : WellKeyed env.mempool progress.pool) :
    WellKeyed env.mempool next.pool := by
  cases h with
  | there => exact hkeyed
  | submitted found after hvalid hafter => exact hafter
  | failed => exact hkeyed

theorem TriedAlone.keys :
    ((progress.results_final.map Prod.fst).Nodup → (next.results_final.map Prod.fst).Nodup) ∧
    (∀ wtxid ∈ next.results_final.map Prod.fst,
      wtxid ∈ progress.results_final.map Prod.fst ∨ wtxid = env.wtxid tx) ∧
    (∀ wtxid ∈ next.individual_results_nonfinal.map Prod.fst,
      wtxid ∈ progress.individual_results_nonfinal.map Prod.fst ∨ wtxid = env.wtxid tx) ∧
    ∀ other ∈ next.txns_package_eval, other ∈ progress.txns_package_eval ∨ other = tx := by
  cases h with
  | there | submitted =>
    exact ⟨nodup_emplace, fun _ => mem_keys_emplace.mp, fun _ => .inl, fun _ => .inl⟩
  | failed found quit_early eval hinvalid hnot hquit heval =>
    exact ⟨id, fun _ => .inl, fun _ => mem_keys_emplace.mp, heval⟩

variable (hwtxid : env.wtxid other ≠ env.wtxid tx)
    (htxid : env.mempool.txid other ≠ env.mempool.txid tx)
include hwtxid htxid

/-- What a transaction that was tried before is reported as does not change. -/
theorem TriedAlone.final_other (hother : FinalFor env progress other) :
    FinalFor env next other := by
  obtain ⟨found, hlookup, hstanding⟩ := hother
  cases h with
  | there => exact ⟨found, (lookup_emplace_ne hwtxid).trans hlookup, hstanding⟩
  | submitted result after hvalid hkeyed htx hothers =>
    exact ⟨found, (lookup_emplace_ne hwtxid).trans hlookup, hstanding.keeps (hothers _ htxid)⟩
  | failed => exact ⟨found, hlookup, hstanding⟩

theorem TriedAlone.failed_other (hother : FailedFor env progress other) :
    FailedFor env next other := by
  obtain ⟨hnotFinal, hnotThere, ⟨found, hlookup, hinvalid⟩, hretry⟩ := hother
  cases h with
  | there =>
    exact ⟨(lookup_emplace_ne hwtxid).trans hnotFinal, hnotThere,
      ⟨found, hlookup, hinvalid⟩, hretry⟩
  | submitted result after hvalid hkeyed htx hothers =>
    exact ⟨(lookup_emplace_ne hwtxid).trans hnotFinal, fun hit => hnotThere (hothers _ htxid hit).1,
      ⟨found, hlookup, hinvalid⟩, hretry⟩
  | failed result quit_early eval _ hnot hquit _ hkept =>
    exact ⟨hnotFinal, hnotThere, ⟨found, (lookup_emplace_ne hwtxid).trans hlookup, hinvalid⟩,
      hretry.imp hquit (hkept other)⟩

end

theorem Tried.step {done : List CTransaction} (h : Tried env done progress)
    (htried : TriedAlone env progress tx next) (hwtxid : env.wtxid tx ∉ done.map env.wtxid)
    (htxid : env.mempool.txid tx ∉ done.map env.mempool.txid) : Tried env (done ++ [tx]) next := by
  obtain ⟨hnodup, hfinalKeys, hfailedKeys, heval⟩ := htried.keys
  have hself := htried.self (lookup_eq_none_iff_keys.mpr fun hmem => hwtxid (h.finalKeys _ hmem))
    (lookup_eq_none_iff_keys.mpr fun hmem => hwtxid (h.failedKeys _ hmem))
  have hother : ∀ other ∈ done, env.wtxid other ≠ env.wtxid tx ∧
      env.mempool.txid other ≠ env.mempool.txid tx := fun other hmem =>
    ⟨fun heq => hwtxid (mem_map.mpr ⟨other, hmem, heq⟩),
      fun heq => htxid (mem_map.mpr ⟨other, hmem, heq⟩)⟩
  have hkey : ∀ wtxid, wtxid ∈ done.map env.wtxid ∨ wtxid = env.wtxid tx →
      wtxid ∈ (done ++ [tx]).map env.wtxid := by
    intro wtxid hmem
    rw [map_append, mem_append, map_singleton, mem_singleton]
    exact hmem
  refine ⟨htried.keyed h.keyed, hnodup h.nodup,
    fun wtxid hmem => hkey wtxid ((hfinalKeys wtxid hmem).imp_left (h.finalKeys wtxid)),
    fun wtxid hmem => hkey wtxid ((hfailedKeys wtxid hmem).imp_left (h.failedKeys wtxid)),
    fun other hmem => ?_, fun other hmem => ?_⟩
  · cases mem_append.mp hmem with
    | inl hdone =>
      obtain ⟨hne, hne'⟩ := hother other hdone
      exact (h.each other hdone).imp (htried.final_other hne hne') (htried.failed_other hne hne')
    | inr heq =>
      rw [mem_singleton.mp heq]
      exact hself.imp_left And.left
  · have hold : other ∈ progress.txns_package_eval → other ∈ done ++ [tx] ∧
        FailedFor env next other := by
      intro hold
      obtain ⟨hdone, hfailed⟩ := h.eval other hold
      obtain ⟨hne, hne'⟩ := hother other hdone
      exact ⟨mem_append_left _ hdone, htried.failed_other hne hne' hfailed⟩
    cases heval other hmem with
    | inl hold' => exact hold hold'
    | inr heq =>
      cases hself with
      | inl hfinal => exact hold (hfinal.2 ▸ hmem)
      | inr hfailed =>
        exact ⟨mem_append_right _ (mem_singleton.mpr heq), heq ▸ hfailed⟩

/-- The first loop goes through the whole package. -/
theorem tried_foldl (hcommits : WtxidCommits env) (htest : args.m_test_accept = false)
    (hkeyed : WellKeyed env.mempool pool) {done : List CTransaction}
    (hwtxids : (done.map env.wtxid).Nodup) (htxids : (done.map env.mempool.txid).Nodup) :
    Tried env done (done.foldl (tryAlone env args package_size) { pool := pool }) := by
  induction done using reverseRecOn with
  | nil =>
    exact ⟨hkeyed, nodup_nil, nofun, nofun,
      nofun, nofun⟩
  | append_singleton done tx ih =>
    obtain ⟨hwtxids, hwtxid⟩ := nodup_done hwtxids
    obtain ⟨htxids, htxid⟩ := nodup_done htxids
    have h := ih hwtxids htxids
    rw [foldl_append]
    exact h.step (tryAlone_triedAlone hcommits htest h.keyed) hwtxid htxid

end TryAlone

/-! ## The leftovers and the trimming -/

/-- What is known when the mempool was trimmed: results of the first loop are true as long as
the transaction is there, results of the leftovers are for transactions that were not, and who
has neither failed. -/
structure Settled (env : AcceptEnv) (package : List CTransaction) (progress : PackageProgress)
    (limited : CTxMemPool) (multi : PackageMempoolAcceptResult) : Prop where
  keyed : WellKeyed env.mempool limited
  final : ∀ tx ∈ package, ∀ found, progress.results_final.lookup (env.wtxid tx) = some found →
    Standing env limited tx found ∧ multi.m_tx_results.lookup (env.wtxid tx) = none
  accepted : ∀ tx ∈ package, ∀ found, multi.m_tx_results.lookup (env.wtxid tx) = some found →
    found.IsValid ∧ (env.mempool.txid tx ∈ limited.txids →
        (limited.entry (env.mempool.txid tx)).tx = tx) ∨
      found.IsInvalid ∧ env.mempool.txid tx ∉ limited.txids ∧ multi.m_state ≠ none
  failed : ∀ tx ∈ package, progress.results_final.lookup (env.wtxid tx) = none →
    multi.m_tx_results.lookup (env.wtxid tx) = none →
    (∃ found, progress.individual_results_nonfinal.lookup (env.wtxid tx) = some found ∧
      found.IsInvalid) ∧ env.mempool.txid tx ∉ limited.txids ∧ multi.m_state ≠ none

theorem limitMempoolSize_shrunk (hnodup : pool.txids.Nodup) :
    Shrunk pool (limitMempoolSize env pool) ∧ (limitMempoolSize env pool).txids.Nodup := by
  obtain ⟨hexpired, hafter⟩ := @expire_shrunk env.mempool pool hnodup env.expiry
  obtain ⟨htrimmed, hlast⟩ := trimToSize_shrunk hafter
  exact ⟨hexpired.trans htrimmed, hlast⟩

section Leftovers

variable {package : List CTransaction} {progress : PackageProgress} (h : Tried env package progress)
include h

theorem Tried.standing (htx : tx ∈ package)
    (hfound : progress.results_final.lookup (env.wtxid tx) = some found) :
    Standing env progress.pool tx found := by
  cases h.each tx htx with
  | inl hfinal =>
    obtain ⟨_, hother, hstanding⟩ := hfinal
    exact Option.some.inj (hother.symm.trans hfound) ▸ hstanding
  | inr hfailed => exact absurd (hfailed.notFinal.symm.trans hfound) (Option.some_ne_none _).symm

theorem Tried.failedFor (htx : tx ∈ package)
    (hnone : progress.results_final.lookup (env.wtxid tx) = none) : FailedFor env progress tx := by
  cases h.each tx htx with
  | inl hfinal =>
    obtain ⟨_, hfound, -⟩ := hfinal
    exact absurd (hnone.symm.trans hfound) (Option.some_ne_none _).symm
  | inr hfailed => exact hfailed

variable {limited : CTxMemPool} {multi : PackageMempoolAcceptResult}

/-- When the leftovers were not tried, or were refused, the mempool is what the first loop
left. -/
theorem Tried.settled_same (hkeyed : WellKeyed env.mempool limited)
    (hshrunk : Shrunk progress.pool limited)
    (hmulti : ∀ tx ∈ package, ∀ found, multi.m_tx_results.lookup (env.wtxid tx) = some found →
      tx ∈ progress.txns_package_eval ∧ found.IsInvalid ∧ multi.m_state ≠ none)
    (hstate : ∀ tx ∈ package, FailedFor env progress tx → multi.m_state ≠ none) :
    Settled env package progress limited multi := by
  refine ⟨hkeyed, fun tx htx found hfound => ⟨?_, ?_⟩, fun tx htx found hfound => .inr ?_,
    fun tx htx hnone _ => ?_⟩
  · exact (h.standing htx hfound).keeps (keepsTx_of_shrunk hshrunk _)
  · cases hlookup : multi.m_tx_results.lookup (env.wtxid tx) with
    | none => rfl
    | some other =>
      have hnone := (h.eval tx (hmulti tx htx other hlookup).1).2.notFinal
      exact absurd (hnone.symm.trans hfound) (Option.some_ne_none _).symm
  · obtain ⟨heval, hinvalid, hsome⟩ := hmulti tx htx found hfound
    exact ⟨hinvalid, fun hit => (h.eval tx heval).2.notThere (hshrunk.txids _ hit), hsome⟩
  · have hfailed := h.failedFor htx hnone
    exact ⟨hfailed.result, fun hit => hfailed.notThere (hshrunk.txids _ hit), hstate tx htx hfailed⟩

variable (hnodup : (package.map env.mempool.txid).Nodup)
  (hinj : ∀ tx ∈ package, ∀ other ∈ package, env.wtxid tx = env.wtxid other → tx = other)
include hnodup hinj

/-- The leftovers were submitted. -/
theorem Tried.settled_submitted (hquit : progress.quit_early = false)
    (hadmitted : Admitted env progress.pool args progress.txns_package_eval submission)
    (hkeyed : WellKeyed env.mempool limited)
    (hshrunk : Shrunk (finalizeSubpackage env progress.pool submission) limited)
    (hvalid : AllValid env progress.txns_package_eval multi.m_tx_results) :
    Settled env package progress limited multi := by
  have hkey : ∀ tx ∈ package, multi.m_tx_results.lookup (env.wtxid tx) ≠ none ↔
      tx ∈ progress.txns_package_eval := by
    intro tx htx
    rw [ne_eq, lookup_eq_none_iff_keys, not_not, hvalid.keys, mem_map]
    constructor
    · rintro ⟨other, hother, heq⟩
      exact hinj other (h.eval other hother).1 tx htx heq ▸ hother
    · exact fun heval => ⟨tx, heval, rfl⟩
  refine ⟨hkeyed, fun tx htx found hfound => ?_, fun tx htx found hfound => .inl ?_,
    fun tx htx hnone hlookup => ?_⟩
  · have hnot : tx ∉ progress.txns_package_eval := fun heval =>
      absurd ((h.eval tx heval).2.notFinal.symm.trans hfound) (Option.some_ne_none _).symm
    refine ⟨(h.standing htx hfound).keeps ((hadmitted.keepsTx h.keyed.nodup fun hmem => ?_).trans
      (keepsTx_of_shrunk hshrunk _)), not_not.mp (mt (hkey tx htx).mp hnot)⟩
    obtain ⟨other, hother, heq⟩ := mem_map.mp hmem
    exact hnot (inj_on_of_nodup_map hnodup (h.eval other hother).1 htx heq ▸ hother)
  · have heval := (hkey tx htx).mp (hfound ▸ Option.some_ne_none _)
    refine ⟨hvalid.valid _ _ hfound, fun hit => ?_⟩
    rw [hshrunk.tx hit]
    exact hadmitted.tx_of_mem h.keyed.nodup heval
  · have heval := (h.failedFor htx hnone).retry.resolve_left (hquit ▸ Bool.false_ne_true)
    exact absurd hlookup ((hkey tx htx).mpr heval)

/-- What is known of the results after the leftovers were tried and the mempool trimmed. -/
theorem Tried.settled (hscripts : ScriptsAgree env) (htest : args.m_test_accept = false)
    (hcarveouts : args.m_allow_carveouts = false) :
    Settled env package progress (limitMempoolSize env (submitLeftovers env args progress).1)
      (submitLeftovers env args progress).2 := by
  have hlimited : ∀ {pool : CTxMemPool}, WellKeyed env.mempool pool →
      WellKeyed env.mempool (limitMempoolSize env pool) ∧
      Shrunk pool (limitMempoolSize env pool) := by
    intro pool hkeyed
    obtain ⟨hshrunk, hnodup⟩ := @limitMempoolSize_shrunk env pool hkeyed.nodup
    exact ⟨hkeyed.shrunk hshrunk hnodup, hshrunk⟩
  unfold submitLeftovers
  cases hquit : progress.quit_early with
  | true =>
    obtain ⟨hkeyed, hshrunk⟩ := hlimited h.keyed
    exact h.settled_same hkeyed hshrunk nofun fun _ _ _ => Option.some_ne_none _
  | false =>
    by_cases hempty : progress.txns_package_eval = []
    · obtain ⟨hkeyed, hshrunk⟩ := hlimited h.keyed
      rw [if_pos (by simp [hempty])]
      refine h.settled_same hkeyed hshrunk nofun ?_
      intro tx htx hfailed
      have heval := hfailed.retry.resolve_left (hquit ▸ Bool.false_ne_true)
      rw [hempty] at heval
      cases heval
    · rw [if_neg (by simp [hempty])]
      cases @acceptSubPackage_outcome env progress.pool progress.txns_package_eval args
        hscripts htest hcarveouts hempty with
      | refused hresult hafter =>
        obtain ⟨hkeyed, hshrunk⟩ := hlimited h.keyed
        rw [hafter]
        refine h.settled_same hkeyed hshrunk (fun tx htx found hfound => ?_) fun _ _
          _ => hresult.state
        obtain ⟨hkey, hinvalid⟩ := hresult.results _ _ hfound
        obtain ⟨other, hother, heq⟩ := mem_map.mp hkey
        exact ⟨hinj other (h.eval other hother).1 tx htx heq ▸ hother, hinvalid, hresult.state⟩
      | submitted args' submission _ hpasses hafter hstate hresults =>
        have hadmitted := hpasses.admitted
        have happlied := hadmitted.applied h.keyed.nodup
        obtain ⟨hkeyed, hshrunk⟩ := hlimited (happlied.wellKeyed h.keyed)
        rw [hafter]
        exact h.settled_submitted hnodup hinj hquit hadmitted hkeyed hshrunk hresults

end Leftovers

/-! ## Merging the results -/

section Merge

variable {package : List CTransaction} {progress : PackageProgress} {limited : CTxMemPool}
  {multi merged : PackageMempoolAcceptResult} {found : MempoolAcceptResult}

/-- The result of one transaction is merged. -/
structure MergedOne (env : AcceptEnv) (limited : CTxMemPool)
    (multi merged : PackageMempoolAcceptResult)
    (tx : CTransaction) (next : PackageMempoolAcceptResult) : Prop where
  self : ∃ found, next.m_tx_results.lookup (env.wtxid tx) = some found ∧ Truth env limited tx found
  others : ∀ wtxid, wtxid ≠ env.wtxid tx →
    next.m_tx_results.lookup wtxid = merged.m_tx_results.lookup wtxid
  nodup : (merged.m_tx_results.map Prod.fst).Nodup → (next.m_tx_results.map Prod.fst).Nodup
  keys : ∀ wtxid ∈ next.m_tx_results.map Prod.fst,
    wtxid ∈ merged.m_tx_results.map Prod.fst ∨ wtxid = env.wtxid tx
  state : next.m_state = none → merged.m_state = none ∧
    (multi.m_state = none → env.mempool.txid tx ∈ limited.txids)

/-- A result is put in for a transaction that had none. -/
theorem MergedOne.emplace {state : Option PackageValidationState}
    (hnone : merged.m_tx_results.lookup (env.wtxid tx) = none) (htruth : Truth env limited tx found)
    (hstate : state = none → merged.m_state = none ∧
      (multi.m_state = none → env.mempool.txid tx ∈ limited.txids)) :
    MergedOne env limited multi merged tx
      ⟨state, Math.emplace merged.m_tx_results (env.wtxid tx) found⟩ :=
  ⟨⟨found, lookup_emplace_self hnone, htruth⟩, fun _ => lookup_emplace_ne, nodup_emplace,
    fun _ => mem_keys_emplace.mp, hstate⟩

/-- The result of a transaction that is no longer there is replaced. -/
theorem MergedOne.replace (state : PackageValidationState) (htruth : Truth env limited tx found) :
    MergedOne env limited multi merged tx
      ⟨some state, Math.emplace (eraseKey merged.m_tx_results (env.wtxid tx))
        (env.wtxid tx) found⟩ := by
  refine ⟨⟨found, lookup_emplace_self lookup_eraseKey_self, htruth⟩, fun _ hne => ?_,
    fun hnodup => nodup_emplace (nodup_eraseKey hnodup), fun _ hmem => ?_,
    fun hnone => absurd hnone (Option.some_ne_none _)⟩
  · exact (lookup_emplace_ne hne).trans (lookup_eraseKey_ne hne)
  · exact (mem_keys_emplace.mp hmem).imp_left fun h => (filter_sublist.map _).subset h

theorem mergeResult_mergedOne (hcommits : WtxidCommits env)
    (h : Settled env package progress limited multi) (htx : tx ∈ package)
    (hsame : merged.m_tx_results.lookup (env.wtxid tx) = progress.results_final.lookup
      (env.wtxid tx)) :
    MergedOne env limited multi merged tx (mergeResult env limited multi.m_tx_results
      progress.individual_results_nonfinal merged tx) := by
  unfold mergeResult
  dsimp only
  cases hmulti : multi.m_tx_results.lookup (env.wtxid tx) with
  | some found =>
    have hnone : merged.m_tx_results.lookup (env.wtxid tx) = none := by
      rw [hsame]
      cases hfinal : progress.results_final.lookup (env.wtxid tx) with
      | none => rfl
      | some other =>
        exact absurd (hmulti.symm.trans (h.final tx htx other hfinal).2) (Option.some_ne_none _)
    rcases h.accepted tx htx found hmulti with ⟨⟨_, _, _, _, _, rfl⟩,
      hentry⟩ | ⟨⟨_, _, rfl⟩, hnot, hstate⟩
    · dsimp only
      split
      · next hexists =>
        have hthere := ((existsWtxid_iff hcommits h.keyed).mp hexists).1
        exact .emplace hnone ⟨hthere, hexists⟩ fun hstate => ⟨hstate, fun _ => hthere⟩
      next hgone =>
      have hnot : env.mempool.txid tx ∉ limited.txids := fun hit =>
        hgone ((existsWtxid_iff hcommits h.keyed).mpr ⟨hit, congrArg env.wtxid (hentry hit)⟩)
      exact .emplace hnone (truth_invalid hcommits h.keyed hnot ⟨_, _, rfl⟩)
        fun hstate => absurd hstate (Option.some_ne_none _)
    · exact .emplace hnone (truth_invalid hcommits h.keyed hnot ⟨_, _, rfl⟩)
        fun hsame => ⟨hsame, fun hnone => absurd hnone hstate⟩
  | none =>
    dsimp only
    cases hfinal : progress.results_final.lookup (env.wtxid tx) with
    | some found =>
      have hkey : env.wtxid tx ∈ merged.m_tx_results.map Prod.fst :=
        mem_map_of_mem (mem_of_lookup (hsame.trans hfinal))
      rw [if_pos hkey]
      have hstanding := (h.final tx htx found hfinal).1
      split
      · next hthere =>
        exact ⟨⟨found, hsame.trans hfinal, hstanding.truth hcommits h.keyed hthere⟩,
          fun _ _ => rfl, id, fun _ => .inl, fun hstate => ⟨hstate, fun _ => hthere⟩⟩
      · next hgone =>
        exact .replace _ (truth_invalid hcommits h.keyed hgone ⟨_, _, rfl⟩)
    | none =>
      obtain ⟨⟨found, hfound, hinvalid⟩, hnot, hstate⟩ := h.failed tx htx hfinal hmulti
      rw [if_neg (lookup_eq_none_iff_keys.mp (hsame.trans hfinal)), hfound]
      exact .emplace (hsame.trans hfinal) (truth_invalid hcommits h.keyed hnot hinvalid)
        fun hsame => ⟨hsame, fun hnone => absurd hnone hstate⟩

/-- The results after some transactions were merged. -/
structure Merged (env : AcceptEnv) (package : List CTransaction) (progress : PackageProgress)
    (limited : CTxMemPool) (multi : PackageMempoolAcceptResult) (done : List CTransaction)
    (merged : PackageMempoolAcceptResult) : Prop where
  nodup : (merged.m_tx_results.map Prod.fst).Nodup
  keys : ∀ wtxid ∈ merged.m_tx_results.map Prod.fst, wtxid ∈ package.map env.wtxid
  found : ∀ tx ∈ done, ∃ found, merged.m_tx_results.lookup (env.wtxid tx) = some found ∧
    Truth env limited tx found
  rest : ∀ wtxid, wtxid ∉ done.map env.wtxid →
    merged.m_tx_results.lookup wtxid = progress.results_final.lookup wtxid
  state : merged.m_state = none → multi.m_state = none ∧
    ∀ tx ∈ done, env.mempool.txid tx ∈ limited.txids

/-- The last loop begins with the final results of the first one. -/
theorem Settled.mergedAll (h : Settled env package progress limited multi)
    (hcommits : WtxidCommits env)
    (htried : Tried env package progress) {done : List CTransaction}
      (hsub : ∀ tx ∈ done, tx ∈ package)
    (hnodup : (done.map env.wtxid).Nodup) :
    Merged env package progress limited multi done
      (done.foldl (mergeResult env limited multi.m_tx_results
      progress.individual_results_nonfinal) ⟨multi.m_state, progress.results_final⟩) := by
  induction done using reverseRecOn with
  | nil =>
    exact ⟨htried.nodup, htried.finalKeys, nofun, fun _ _ => rfl,
      fun hstate => ⟨hstate, nofun⟩⟩
  | append_singleton done tx ih =>
    obtain ⟨hnodup, hnew⟩ := nodup_done hnodup
    have hmerged := ih (fun other hother => hsub other (mem_append_left _ hother)) hnodup
    have htx := hsub tx mem_concat_self
    have hone := mergeResult_mergedOne hcommits h htx (hmerged.rest _ hnew)
    rw [foldl_append]
    refine ⟨hone.nodup hmerged.nodup, fun wtxid hkey => ?_, fun other hother => ?_,
      fun wtxid hwtxid => ?_, fun hstate => ?_⟩
    · exact (hone.keys wtxid hkey).elim (hmerged.keys wtxid) fun heq => heq ▸ mem_map_of_mem htx
    · cases mem_append.mp hother with
      | inl hdone =>
        obtain ⟨found, hfound, htruth⟩ := hmerged.found other hdone
        refine ⟨found, (hone.others _ fun heq => hnew ?_).trans hfound, htruth⟩
        exact heq ▸ mem_map_of_mem hdone
      | inr heq =>
        rw [mem_singleton.mp heq]
        exact hone.self
    · rw [map_append, mem_append, not_or, map_singleton, mem_singleton] at hwtxid
      exact (hone.others wtxid hwtxid.2).trans (hmerged.rest wtxid hwtxid.1)
    · obtain ⟨hbefore, hself⟩ := hone.state hstate
      obtain ⟨hmulti, hdone⟩ := hmerged.state hbefore
      refine ⟨hmulti, fun other hother => ?_⟩
      cases mem_append.mp hother with
      | inl hmem => exact hdone other hmem
      | inr heq => exact mem_singleton.mp heq ▸ hself hmulti

end Merge

/-! ## Packages -/

/-- The results of a package tell what became of its transactions. -/
structure Truthful (env : AcceptEnv) (package : List CTransaction) (after : CTxMemPool)
    (result : PackageMempoolAcceptResult) : Prop where
  one : (result.m_tx_results.map Prod.fst).Perm (package.map env.wtxid)
  truth : ∀ tx ∈ package, ∀ found, (env.wtxid tx, found) ∈ result.m_tx_results →
    Truth env after tx found
  state : result.m_state = none → ∀ tx ∈ package, env.mempool.txid tx ∈ after.txids

/-- For a package of one transaction, or of a child with its parents whose other inputs are
confirmed, the results tell what became of each transaction. -/
theorem acceptPackage_truthful (hcommits : WtxidCommits env) (hscripts : ScriptsAgree env)
    (hkeyed : WellKeyed env.mempool pool) {package : List CTransaction} {time : Int}
    {maxfeerate : Option CFeeRate}
      (hform : isWellFormedPackage env.mempool.txid package true = none)
    (htopology : package.length = 1 ∨ isChildWithParents env.mempool.txid package = true)
    (hinputs : 1 < package.length → ∀ child ∈ package.getLast?, ∀ input ∈ child.vin,
      input.prevout.hash ∈ package.dropLast.map env.mempool.txid ∨
      (env.coinsTip input.prevout).isSome = true) :
    Truthful env package
      (acceptPackage env pool (.packageChildWithParents time maxfeerate) package).1
      (acceptPackage env pool (.packageChildWithParents time maxfeerate) package).2 := by
  have hcheck : checkPackage env package = none := by
    unfold checkPackage
    rw [hform]
    dsimp only
    split
    · rfl
    next hlength =>
    have hparents := htopology.resolve_left fun hone => hlength hone.le
    rw [if_neg (by simp [hparents])]
    cases hlast : package.getLast? with
    | none => rfl
    | some child =>
      refine if_pos (all_eq_true.mpr fun input hinput => ?_)
      rw [Bool.or_eq_true, decide_eq_true_eq]
      exact hinputs (Nat.not_le.mp hlength) child hlast input hinput
  have htxids := (isWellFormedPackage_none hform).nodup
  have hinj : ∀ tx ∈ package, ∀ other ∈ package, env.wtxid tx = env.wtxid other → tx = other :=
    fun tx htx other hother heq => inj_on_of_nodup_map htxids htx hother (hcommits tx other heq)
  have hwtxids := (Nodup.of_map _ htxids).map_on hinj
  have htried :=
    @tried_foldl env pool (.packageChildWithParents time maxfeerate) package.length hcommits rfl
    hkeyed package hwtxids htxids
  have hsettled := @Tried.settled env (.packageChildWithParents time maxfeerate) package _
    htried htxids hinj hscripts rfl rfl
  have hmerged := hsettled.mergedAll hcommits htried (fun _ htx => htx) hwtxids
  unfold acceptPackage
  rw [hcheck]
  refine ⟨?_, fun tx htx found hfound => ?_, fun hstate => (hmerged.state hstate).2⟩
  · refine (perm_ext_iff_of_nodup hmerged.nodup hwtxids).mpr fun wtxid =>
      ⟨hmerged.keys wtxid, fun hmem => ?_⟩
    obtain ⟨tx, htx, rfl⟩ := mem_map.mp hmem
    obtain ⟨found, hfound, -⟩ := hmerged.found tx htx
    exact mem_map_of_mem (mem_of_lookup hfound)
  obtain ⟨other, hother, htruth⟩ := hmerged.found tx htx
  rw [← lookup_iff_mem hmerged.nodup, hother] at hfound
  exact Option.some.inj hfound ▸ htruth

/-! ## A package with a parent missing -/

/-- A parent that spends from the tip, and a child that spends from it and from another
transaction. -/
def sampleParent : CTransaction := sampleTx 1 [5000]
def sampleChildOf (other : Uint256) : CTransaction :=
  ⟨[⟨⟨1, 0⟩, [], 0, []⟩, ⟨⟨other, 0⟩, [], 0, []⟩], [sampleOutput 1000], 2, 2⟩

/-- A child with a parent that is neither in the package nor confirmed is refused without a
result for any transaction. -/
theorem package_without_results :
    isWellFormedPackage sampleEnv.txid [sampleParent, sampleChildOf 7] true = none ∧
      isChildWithParents sampleEnv.txid [sampleParent, sampleChildOf 7] = true ∧
      (acceptPackage sampleAccept {} (.packageChildWithParents 1 none)
        [sampleParent, sampleChildOf 7]).2.m_tx_results = [] :=
  ⟨by decide, by decide, by decide⟩

/-- With the other parent confirmed both are accepted. -/
theorem acceptPackage_truthful_sample :
      (acceptPackage sampleAccept {} (.packageChildWithParents 1 none)
      [sampleParent, sampleChildOf 1001]).1.txids = [1, 2] ∧
    Truthful sampleAccept [sampleParent, sampleChildOf 1001]
      (acceptPackage sampleAccept {} (.packageChildWithParents 1 none) [sampleParent,
        sampleChildOf 1001]).1
      (acceptPackage sampleAccept {} (.packageChildWithParents 1 none)
        [sampleParent, sampleChildOf 1001]).2 := by
  refine ⟨by decide +kernel, acceptPackage_truthful (fun _ _ heq => heq) (fun _ _ _ => rfl)
    ⟨nodup_nil, fun _ hit => absurd hit not_mem_nil⟩ (by decide +kernel) (.inr (by decide +kernel))
      fun _ child hchild => ?_⟩
  cases hchild
  decide

end MemPoolAccept

end BtcSharp
