/-
# What comes of a subpackage

`AcceptSubPackage` either refuses its transactions, and leaves the mempool as it was, or
submits all of them. The results it returns are told apart by this: after a refusal those
that are there say invalid, and after a submission there is one for each transaction, which
says valid.
-/

import BtcSharp.Validation.Replacement

namespace BtcSharp

open List Math

namespace MempoolAcceptResult

/-- The transaction was rejected. -/
def IsInvalid (result : MempoolAcceptResult) : Prop :=
    ∃ state feerate, result = .invalid state feerate

/-- The transaction was accepted. -/
def IsValid (result : MempoolAcceptResult) : Prop :=
  ∃ replaced vsize fees feerate wtxids, result = .valid replaced vsize fees feerate wtxids

end MempoolAcceptResult

namespace MemPoolAccept

open CTxMemPool MempoolAcceptResult

variable {env : AcceptEnv} {pool after : CTxMemPool} {txns : List CTransaction} {args : ATMPArgs}
  {tx : CTransaction} {submission : Submission} {ε α : Type} {first : Except ε α}
  {found : MempoolAcceptResult} {workspaces : List Workspace} {result : PackageMempoolAcceptResult}
  {view : COutPoint → Option Coin}

theorem except_bind_error {β : Type} {rest : α → Except ε β} {err : ε}
    (h : (first >>= rest) = .error err) :
    first = .error err ∨ ∃ value, first = .ok value ∧ rest value = .error err := by
  cases first with
  | error other => exact .inl (congrArg _ (Except.error.inj h))
  | ok value => exact .inr ⟨value, rfl, h⟩

theorem mapError_error {ε' : Type} {change : ε → ε'} {err : ε'}
    (h : first.mapError change = .error err) : ∃ cause, first = .error cause ∧
      change cause = err := by
  cases first with
  | error cause => exact ⟨cause, rfl, Except.error.inj h⟩
  | ok value => cases h

/-! ## One transaction -/

theorem checkSingle_error {result : MempoolAcceptResult}
    (h : checkSingle env pool args tx = .error result) : result.IsInvalid := by
  have hfailure : ∀ {α : Type} {first : Except Rejection α} {result : MempoolAcceptResult},
      first.mapError (failure env tx) = .error result → result.IsInvalid := by
    intro α first result hfirst
    obtain ⟨_, -, rfl⟩ := mapError_error hfirst
    exact ⟨_, _, rfl⟩
  rcases except_bind_error h with hfirst | ⟨_, -, h⟩
  · exact hfailure hfirst
  split at h
  · exact ⟨_, _, (Except.error.inj h).symm⟩
  split at h
  · exact ⟨_, _, (Except.error.inj h).symm⟩
  rcases except_bind_error h with hremove | ⟨_, -, h⟩
  · exact hfailure hremove
  rcases except_bind_error h with hpolicy | ⟨⟨⟩, -, h⟩
  · obtain ⟨state, -, rfl⟩ := mapError_error hpolicy
    exact ⟨_, _, rfl⟩
  rcases except_bind_error h with hconsensus | ⟨⟨⟩, -, h⟩
  · obtain ⟨state, -, rfl⟩ := mapError_error hconsensus
    exact ⟨_, _, rfl⟩
  · cases h

/-- A transaction that is not only tested, and is not trimmed right away, is rejected without
a change or submitted. -/
theorem acceptSingleTransaction_spec (htest : args.m_test_accept = false)
    (hsubmission : args.m_package_submission = true) :
    ((acceptSingleTransaction env pool args tx).2.IsInvalid ∧
        (acceptSingleTransaction env pool args tx).1 = pool) ∨
      ∃ submission, checkSingle env pool args tx = .ok submission ∧
        (acceptSingleTransaction env pool args tx).2.IsValid ∧
        (acceptSingleTransaction env pool args tx).1 = finalizeSubpackage env pool submission := by
  unfold acceptSingleTransaction
  cases hcheck : checkSingle env pool args tx with
  | error result => exact .inl ⟨checkSingle_error hcheck, rfl⟩
  | ok submission =>
    have hadmitted := (checkSingle_ok hcheck).1
    obtain ⟨ws, hworkspaces⟩ : ∃ ws, submission.workspaces = [ws] :=
      length_eq_one_iff.mp (by rw [← length_map, hadmitted.checked.txs.1]; rfl)
    obtain ⟨workspaces, _⟩ := submission
    subst hworkspaces
    refine .inr ⟨_, rfl, ?_⟩
    rw [htest, hsubmission]
    exact ⟨⟨_, _, _, _, _, rfl⟩, rfl⟩

/-! ## Several transactions -/

/-- Transactions were refused: results are for some of them, and they say so. -/
structure Refused (env : AcceptEnv) (txns : List CTransaction)
    (result : PackageMempoolAcceptResult) : Prop where
  state : result.m_state ≠ none
  results : ∀ wtxid found, result.m_tx_results.lookup wtxid = some found →
    wtxid ∈ txns.map env.wtxid ∧ found.IsInvalid

theorem Refused.nil (state : PackageValidationState) : Refused env txns ⟨some state, []⟩ :=
  ⟨Option.some_ne_none _, nofun⟩

theorem Refused.singleton {state : PackageValidationState} (htx : tx ∈ txns)
    (hfound : found.IsInvalid) : Refused env txns ⟨some state, [(env.wtxid tx, found)]⟩ := by
  refine ⟨Option.some_ne_none _, fun wtxid other hother => ?_⟩
  obtain ⟨heq, rfl⟩ := Prod.mk.inj (mem_singleton.mp (mem_of_lookup hother))
  exact ⟨heq ▸ mem_map_of_mem htx, hfound⟩

theorem preChecksLoop_error {rest : List CTransaction} :
    ∀ {added : List CTransaction} {result : PackageMempoolAcceptResult},
      (∀ tx ∈ rest, tx ∈ txns) → preChecksLoop env pool args rest added = .error result →
      Refused env txns result := by
  induction rest with
  | nil =>
    intro added result _ h
    cases h
  | cons tx rest ih =>
    intro added result hsub h
    have htx := hsub tx mem_cons_self
    rcases except_bind_error h with hfirst | ⟨_, -, h⟩
    · obtain ⟨_, -, rfl⟩ := mapError_error hfirst
      exact .singleton htx ⟨_, _, rfl⟩
    split at h
    · obtain rfl := Except.error.inj h
      exact .singleton htx ⟨_, _, rfl⟩
    rcases except_bind_error h with hrest | ⟨_, -, h⟩
    · exact ih (fun other hother => hsub other (mem_cons_of_mem _ hother)) hrest
    · cases h

theorem checkPackageFeeRate_error (h : checkPackageFeeRate env pool args txns workspaces =
    .error result) : Refused env txns result := by
  unfold checkPackageFeeRate at h
  split at h
  · obtain ⟨_, -, rfl⟩ := mapError_error h
    cases hlast : txns.getLast? with
    | none => exact .nil _
    | some child => exact .singleton (mem_of_getLast? hlast) ⟨_, _, rfl⟩
  · cases h

theorem policyScriptsLoop_error {rest : List Workspace} (htest : args.m_test_accept = false)
    (hsub : ∀ ws ∈ rest, ws.tx ∈ txns)
    (h : policyScriptsLoop env view args workspaces rest [] = .error result) :
    Refused env txns result := by
  induction rest with
  | nil => cases h
  | cons ws rest ih =>
    rw [policyScriptsLoop] at h
    split at h
    · obtain rfl := Except.error.inj h
      exact .singleton (hsub ws mem_cons_self) ⟨_, _, rfl⟩
    · rw [htest] at h
      exact ih (fun other hother => hsub other (mem_cons_of_mem _ hother)) h

theorem checkMultiple_error (htest : args.m_test_accept = false)
    (h : checkMultiple env pool args txns = .error result) : Refused env txns result := by
  unfold checkMultiple at h
  split at h
  · obtain rfl := Except.error.inj h
    exact .nil _
  rcases except_bind_error h with hloop | ⟨_, hloop, h⟩
  · exact preChecksLoop_error (fun _ htx => htx) hloop
  split at h
  · rcases except_bind_error h with hfees | ⟨⟨⟩, -, h⟩
    · exact checkPackageFeeRate_error hfees
    rcases except_bind_error h with hremove | ⟨_, -, h⟩
    · obtain ⟨_, -, rfl⟩ := mapError_error hremove
      exact .nil _
    split at h
    · next child hchild =>
      obtain rfl := Except.error.inj h
      split at hchild
      · exact .singleton (mem_of_find?_eq_some hchild) ⟨_, _, rfl⟩
      · cases hchild
    rcases except_bind_error h with hscripts | ⟨_, -, h⟩
    · refine policyScriptsLoop_error htest (fun ws hws => ?_) hscripts
      have htxs := (preChecksLoop_ok hloop).txs.1
      exact htxs ▸ mem_map_of_mem hws
    · cases h
  · obtain rfl := Except.error.inj h
    exact .nil _

/-- Results for all transactions of a list and no others, which say that they were accepted. -/
structure AllValid (env : AcceptEnv) (txns : List CTransaction)
    (results : List (Uint256 × MempoolAcceptResult)) : Prop where
  keys : ∀ wtxid, wtxid ∈ results.map Prod.fst ↔ wtxid ∈ txns.map env.wtxid
  valid : ∀ wtxid found, results.lookup wtxid = some found → found.IsValid

theorem success_isValid (workspaces : List Workspace) (replaced : List CTransaction)
    (ws : Workspace) : (success env args workspaces replaced ws).IsValid := by
  unfold success
  split <;> exact ⟨_, _, _, _, _, rfl⟩

theorem AllValid.emplace {results : List (Uint256 × MempoolAcceptResult)}
    (h : AllValid env txns results) (hfound : found.IsValid) :
    AllValid env (txns ++ [tx]) (emplace results (env.wtxid tx) found) := by
  refine ⟨fun wtxid => ?_, fun wtxid other hother => ?_⟩
  · rw [mem_keys_emplace, h.keys, map_append, mem_append, map_singleton, mem_singleton]
  by_cases heq : wtxid = env.wtxid tx
  · subst heq
    cases hlookup : results.lookup (env.wtxid tx) with
    | none =>
      rw [lookup_emplace_self hlookup] at hother
      exact Option.some.inj hother ▸ hfound
    | some before =>
      have hthere : env.wtxid tx ∈ results.map Prod.fst :=
        mem_map_of_mem (mem_of_lookup hlookup)
      have hsame : Math.emplace results (env.wtxid tx) found = results := if_pos hthere
      rw [hsame] at hother
      exact h.valid _ _ hother
  · rw [lookup_emplace_ne heq] at hother
    exact h.valid _ _ hother

theorem AllValid.foldl {workspaces rest : List Workspace} :
    ∀ {txns : List CTransaction} {results : List (Uint256 × MempoolAcceptResult)},
      AllValid env txns results →
      AllValid env (txns ++ rest.map (·.tx)) (rest.foldl (fun results ws =>
        Math.emplace results (env.wtxid ws.tx) (success env args workspaces [] ws)) results) := by
  induction rest with
  | nil =>
    intro txns results h
    rw [map_nil, append_nil]
    exact h
  | cons ws rest ih =>
    intro txns results h
    rw [map_cons, append_cons]
    exact ih (h.emplace (success_isValid workspaces [] ws))

theorem submittedResults_allValid (workspaces : List Workspace) (replaced : List CTransaction) :
    AllValid env (workspaces.map (·.tx)) (submittedResults env args workspaces replaced) := by
  cases workspaces with
  | nil => exact ⟨fun _ => .rfl, nofun⟩
  | cons first rest =>
    refine @AllValid.foldl env args _ rest [first.tx] _
      ⟨fun _ => .rfl, fun wtxid found hfound => ?_⟩
    obtain ⟨-, rfl⟩ := Prod.mk.inj (mem_singleton.mp (mem_of_lookup hfound))
    exact success_isValid _ _ _

/-- Scripts that pass the check by policy pass the check by consensus. -/
def ScriptsAgree (env : AcceptEnv) : Prop :=
  ∀ tx view, env.policyScriptChecks tx view = .ok () → env.consensusScriptChecks tx view = .ok ()

theorem consensusFailures_nil (hscripts : ScriptsAgree env)
    (h : ∀ ws ∈ workspaces, env.policyScriptChecks ws.tx view = .ok ()) :
    consensusFailures env view workspaces = [] := by
  refine filterMap_eq_nil_iff.mpr fun ws hws => ?_
  rw [hscripts ws.tx view (h ws hws)]

/-- What comes of a subpackage: it is refused without a change, or submitted as a whole. -/
inductive Outcome (env : AcceptEnv) (pool : CTxMemPool) (subpackage : List CTransaction)
    (after : CTxMemPool) (result : PackageMempoolAcceptResult) : Prop
  | refused (hresult : Refused env subpackage result) (hafter : after = pool)
  | submitted (args : ATMPArgs) (submission : Submission)
      (hcarveouts : args.m_allow_carveouts = false)
      (hpasses : Passes env pool args subpackage submission)
      (hafter : after = finalizeSubpackage env pool submission) (hstate : result.m_state = none)
      (hresults : AllValid env subpackage result.m_tx_results)

theorem acceptMultipleTransactions_outcome (hscripts : ScriptsAgree env)
    (htest : args.m_test_accept = false) (hcarveouts : args.m_allow_carveouts = false)
    (hlength : 1 < txns.length) :
    Outcome env pool txns (acceptMultipleTransactions env pool args txns).1
      (acceptMultipleTransactions env pool args txns).2 := by
  unfold acceptMultipleTransactions
  cases hcheck : checkMultiple env pool args txns with
  | error result => exact .refused (checkMultiple_error htest hcheck) rfl
  | ok checked =>
    obtain ⟨submission, _⟩ := checked
    obtain ⟨hadmitted, htogether⟩ := checkMultiple_ok hlength hcheck
    dsimp only
    rw [if_neg (by simp [htest])]
    unfold submitPackage
    rw [consensusFailures_nil hscripts htogether.scripts]
    refine .submitted args submission hcarveouts (.multiple hlength hcheck) rfl rfl ?_
    have hvalid := @submittedResults_allValid env args submission.workspaces
      (replacedTransactions pool submission)
    rw [hadmitted.checked.txs.1] at hvalid
    exact hvalid

theorem acceptSubPackage_single (htest : args.m_test_accept = false) :
    Outcome env pool [tx] (acceptSubPackage env pool args [tx]).1
      (acceptSubPackage env pool args [tx]).2 := by
  have hspec := @acceptSingleTransaction_spec env pool args.singleInPackageAccept tx htest rfl
  unfold acceptSubPackage
  dsimp only
  rcases hspec with ⟨⟨_, _, hinvalid⟩, hsame⟩ | ⟨submission, hcheck, hvalid, hafter⟩
  · refine .refused ?_ hsame
    rw [hinvalid]
    exact .singleton (mem_singleton.mpr rfl) ⟨_, _, rfl⟩
  refine .submitted _ submission rfl (.single hcheck) hafter ?_
    ⟨fun _ => .rfl, fun wtxid found hfound => ?_⟩
  · obtain ⟨_, _, _, _, _, heq⟩ := hvalid
    rw [heq]
  · obtain ⟨-, rfl⟩ := Prod.mk.inj (mem_singleton.mp (mem_of_lookup hfound))
    exact hvalid

theorem acceptSubPackage_outcome (hscripts : ScriptsAgree env) (htest : args.m_test_accept = false)
    (hcarveouts : args.m_allow_carveouts = false) (hne : txns ≠ []) :
    Outcome env pool txns (acceptSubPackage env pool args txns).1
      (acceptSubPackage env pool args txns).2 := by
  match txns, hne with
  | [tx], _ => exact acceptSubPackage_single htest
  | first :: second :: rest, _ =>
    exact acceptMultipleTransactions_outcome hscripts htest hcarveouts
      (Nat.succ_lt_succ (Nat.succ_pos _))

end MemPoolAccept

end BtcSharp
