/-
# Deployment states of soft forks

`GetStateFor` and `GetStateSinceHeightFor` of `versionbits.cpp`. The state of a block depends on the
last block of the period before, and on the state of that period. The states that were computed are
kept in a cache, which all calls for one deployment share. It is a map from entries of the block
index, with the empty list for the null pointer. `none` is a failed assertion.

The walk back of `GetStateFor` stops at blocks before the start time. There the state is defined
without a cache, too, since median times do not decrease along a chain. So every entry of the cache
is the state of the recursion.
-/

import BtcSharp.Chain

namespace BtcSharp

inductive ThresholdState
  | defined
  | started
  | lockedIn
  | active
  | failed
  deriving DecidableEq, Repr

def ALWAYS_ACTIVE : Int := -1
def NEVER_ACTIVE : Int := -2

/-- What an `AbstractThresholdConditionChecker` is asked for. -/
structure Deployment where
  period : Nat
  threshold : Int
  minActivationHeight : Int
  beginTime : Int
  endTime : Int
  condition : CBlockIndex → Bool
  period_pos : 0 < period

def ThresholdConditionCache := CBlockIndex → Option ThresholdState

namespace ThresholdConditionCache

def empty : ThresholdConditionCache := fun _ => none

def set (cache : ThresholdConditionCache) (pindex : CBlockIndex) (state : ThresholdState) :
    ThresholdConditionCache := fun other => if other = pindex then some state else cache other

end ThresholdConditionCache

namespace Deployment

variable (deployment : Deployment) (nTime : CBlockIndex → UInt32)

/-- The last block of the period before. -/
def periodParent (pindexPrev : CBlockIndex) : CBlockIndex :=
  if pindexPrev = [] then []
  else pindexPrev.getAncestorInt
    (pindexPrev.nHeight - ((pindexPrev.nHeight + 1) % deployment.period : Nat))

/-- The last block of the period before that of a last block. -/
def previousPeriodParent (pindexPrev : CBlockIndex) : CBlockIndex :=
  pindexPrev.getAncestorInt (pindexPrev.nHeight - deployment.period)

theorem length_previousPeriodParent_lt {pindexPrev : CBlockIndex} (hne : pindexPrev ≠ []) :
    (deployment.previousPeriodParent pindexPrev).length < pindexPrev.length := by
  have hpos := List.length_pos_iff.mpr hne
  have hperiod := deployment.period_pos
  unfold previousPeriodParent CBlockIndex.getAncestorInt CBlockIndex.getAncestor CBlockIndex.nHeight
  split
  · exact hpos
  split
  · rw [List.length_drop]
    omega
  · exact hpos

/-- The walk back to a block whose state is known, with the blocks on the way. The genesis block is
by definition defined, and so is a block before the start time. -/
def walkBack (cache : ThresholdConditionCache) (pindexPrev : CBlockIndex)
    (vToCompute : List CBlockIndex) : CBlockIndex × List CBlockIndex × ThresholdConditionCache :=
  if (cache pindexPrev).isSome then (pindexPrev, vToCompute, cache)
  else if pindexPrev = [] then
    (pindexPrev, vToCompute, cache.set pindexPrev .defined)
  else if getMedianTimePast nTime pindexPrev < deployment.beginTime then
    (pindexPrev, vToCompute, cache.set pindexPrev .defined)
  else walkBack cache (deployment.previousPeriodParent pindexPrev) (pindexPrev :: vToCompute)
termination_by pindexPrev.length
decreasing_by exact deployment.length_previousPeriodParent_lt ‹_›

/-- The number of blocks of a period that meet the condition. -/
def count (pindexPrev : CBlockIndex) : Nat :=
  (List.range deployment.period).countP fun i => deployment.condition (pindexPrev.drop i)

/-- The state of the next period. -/
def stateNext (state : ThresholdState) (pindexPrev : CBlockIndex) : ThresholdState :=
  match state with
  | .defined =>
    if getMedianTimePast nTime pindexPrev ≥ deployment.beginTime then .started else .defined
  | .started =>
    if (deployment.count pindexPrev : Int) ≥ deployment.threshold then .lockedIn
    else if getMedianTimePast nTime pindexPrev ≥ deployment.endTime then .failed
    else .started
  | .lockedIn =>
    if (pindexPrev.nHeight : Int) + 1 ≥ deployment.minActivationHeight then .active else .lockedIn
  | .active => .active
  | .failed => .failed

/-- The walk forward over the blocks whose states are to be computed. -/
def walkForward : List CBlockIndex → ThresholdState → ThresholdConditionCache →
    ThresholdState × ThresholdConditionCache
  | [], state, cache => (state, cache)
  | pindexPrev :: vToCompute, state, cache =>
    let next := deployment.stateNext nTime state pindexPrev
    walkForward vToCompute next (cache.set pindexPrev next)

def getStateFor (pindexPrev : CBlockIndex) (cache : ThresholdConditionCache) :
    Option (ThresholdState × ThresholdConditionCache) :=
  if deployment.beginTime = ALWAYS_ACTIVE then some (.active, cache)
  else if deployment.beginTime = NEVER_ACTIVE then some (.failed, cache)
  else
    let (known, vToCompute, cache) :=
      deployment.walkBack nTime cache (deployment.periodParent pindexPrev) []
    match cache known with
    | none => none
    | some state => some (deployment.walkForward nTime vToCompute state cache)

/-- The loop of `GetStateSinceHeightFor`. -/
def sinceLoop (initialState : ThresholdState) (pindexPrev previous : CBlockIndex)
    (cache : ThresholdConditionCache) : Option (Int × ThresholdConditionCache) :=
  if hnull : previous = [] then some (pindexPrev.nHeight + 1, cache)
  else
    match deployment.getStateFor nTime previous cache with
    | none => none
    | some (state, cache) =>
      if state = initialState then
        sinceLoop initialState previous (deployment.previousPeriodParent previous) cache
      else some (pindexPrev.nHeight + 1, cache)
termination_by previous.length
decreasing_by exact deployment.length_previousPeriodParent_lt hnull

def getStateSinceHeightFor (pindexPrev : CBlockIndex) (cache : ThresholdConditionCache) :
    Option (Int × ThresholdConditionCache) :=
  if deployment.beginTime = ALWAYS_ACTIVE ∨ deployment.beginTime = NEVER_ACTIVE then some (0, cache)
  else do
    let (initialState, cache) ← deployment.getStateFor nTime pindexPrev cache
    if initialState = .defined then some (0, cache)
    else
      let parent := deployment.periodParent pindexPrev
      if parent = [] then none
      else
        deployment.sinceLoop nTime initialState parent (deployment.previousPeriodParent parent)
          cache

/-! ## Queries that share a cache -/

/-- A call for a deployment. -/
inductive Query
  | stateFor (pindexPrev : CBlockIndex)
  | sinceHeightFor (pindexPrev : CBlockIndex)

def Query.pindexPrev : Query → CBlockIndex
  | .stateFor pindexPrev => pindexPrev
  | .sinceHeightFor pindexPrev => pindexPrev

/-- What is returned. -/
inductive Answer
  | state (state : ThresholdState)
  | height (height : Int)

/-- One call. -/
def ask (cache : ThresholdConditionCache) : Query → Option (Answer × ThresholdConditionCache)
  | .stateFor pindexPrev => do
    let (state, cache) ← deployment.getStateFor nTime pindexPrev cache
    return (.state state, cache)
  | .sinceHeightFor pindexPrev => do
    let (height, cache) ← deployment.getStateSinceHeightFor nTime pindexPrev cache
    return (.height height, cache)

/-- A sequence of calls. -/
def askAll : List Query → ThresholdConditionCache → Option (List Answer)
  | [], _ => some []
  | query :: queries, cache => do
    let (answer, cache) ← deployment.ask nTime cache query
    let answers ← askAll queries cache
    return answer :: answers

end Deployment

open List

namespace Deployment

variable (deployment : Deployment) (nTime : CBlockIndex → UInt32)

/-! ## Without a cache -/

/-- The state after a last block of a period. -/
def stateAfter (pindexPrev : CBlockIndex) : ThresholdState :=
  if pindexPrev = [] then .defined
  else deployment.stateNext nTime
    (stateAfter (deployment.previousPeriodParent pindexPrev)) pindexPrev
termination_by pindexPrev.length
decreasing_by exact deployment.length_previousPeriodParent_lt ‹_›

/-- The state of the block after a block. -/
def state (pindexPrev : CBlockIndex) : ThresholdState :=
  if deployment.beginTime = ALWAYS_ACTIVE then .active
  else if deployment.beginTime = NEVER_ACTIVE then .failed
  else deployment.stateAfter nTime (deployment.periodParent pindexPrev)

/-- The height of the first block of the first period since which the state has not changed. -/
def sinceHeightAfter (pindexPrev : CBlockIndex) : Int :=
  if deployment.previousPeriodParent pindexPrev = [] then pindexPrev.nHeight + 1
  else if deployment.stateAfter nTime (deployment.previousPeriodParent pindexPrev) =
      deployment.stateAfter nTime pindexPrev then
    sinceHeightAfter (deployment.previousPeriodParent pindexPrev)
  else pindexPrev.nHeight + 1
termination_by pindexPrev.length
decreasing_by
  apply deployment.length_previousPeriodParent_lt
  rintro rfl
  simp_all [previousPeriodParent, CBlockIndex.getAncestorInt, CBlockIndex.getAncestor]

/-- The height since which the block after a block has its state. -/
def sinceHeight (pindexPrev : CBlockIndex) : Int :=
  if deployment.beginTime = ALWAYS_ACTIVE ∨ deployment.beginTime = NEVER_ACTIVE then 0
  else if deployment.state nTime pindexPrev = .defined then 0
  else deployment.sinceHeightAfter nTime (deployment.periodParent pindexPrev)

/-- The answer to a call. -/
def answer : Query → Answer
  | .stateFor pindexPrev => .state (deployment.state nTime pindexPrev)
  | .sinceHeightFor pindexPrev => .height (deployment.sinceHeight nTime pindexPrev)

theorem stateAfter_nil : deployment.stateAfter nTime [] = .defined := by
  rw [stateAfter, if_pos rfl]

variable {pindexPrev ancestor : CBlockIndex} {cache : ThresholdConditionCache} {tree : HeaderTree}

theorem stateAfter_of_ne (hne : pindexPrev ≠ []) : deployment.stateAfter nTime pindexPrev =
      deployment.stateNext nTime
        (deployment.stateAfter nTime (deployment.previousPeriodParent pindexPrev))
        pindexPrev := by
  rw [stateAfter, if_neg hne]

/-! ## Periods -/

section

variable (pindexPrev : CBlockIndex)

theorem previousPeriodParent_eq :
    deployment.previousPeriodParent pindexPrev = pindexPrev.drop deployment.period := by
  unfold previousPeriodParent CBlockIndex.getAncestorInt CBlockIndex.getAncestor CBlockIndex.nHeight
  by_cases hshort : pindexPrev.length ≤ deployment.period
  · rw [drop_eq_nil_of_le hshort]
    split
    · rfl
    · rw [if_neg]
      omega
  rw [if_neg (by omega), if_pos (by omega)]
  congr 1
  omega

/-- The last block of the period before is that below the blocks of the running period. -/
theorem periodParent_eq :
    deployment.periodParent pindexPrev = pindexPrev.drop
      (pindexPrev.length % deployment.period) := by
  have hperiod := deployment.period_pos
  unfold periodParent CBlockIndex.getAncestorInt CBlockIndex.getAncestor CBlockIndex.nHeight
  by_cases hnull : pindexPrev = []
  · rw [if_pos hnull, hnull, drop_nil]
  have hpos := length_pos_iff.mpr hnull
  rw [if_neg hnull, Nat.sub_add_cancel hpos]
  split
  · rw [drop_eq_nil_of_le]
    omega
  rw [if_pos (by omega)]
  congr 1
  omega

theorem previousPeriodParent_suffix :
    deployment.previousPeriodParent pindexPrev <:+ pindexPrev := by
  rw [previousPeriodParent_eq]
  exact drop_suffix _ _

theorem periodParent_suffix : deployment.periodParent pindexPrev <:+ pindexPrev := by
  rw [periodParent_eq]
  exact drop_suffix _ _

/-- The lengths of last blocks of periods are multiples of the period. -/
theorem dvd_length_periodParent :
    deployment.period ∣ (deployment.periodParent pindexPrev).length := by
  rw [periodParent_eq, length_drop]
  exact Nat.dvd_sub_mod pindexPrev.length

end

theorem dvd_length_previousPeriodParent (h : deployment.period ∣ pindexPrev.length) :
    deployment.period ∣ (deployment.previousPeriodParent pindexPrev).length := by
  rw [previousPeriodParent_eq, length_drop]
  exact Nat.dvd_sub h (dvd_refl _)

/-! ## The entries of the cache -/

/-- Every entry is the state of the recursion. -/
def Agrees (cache : ThresholdConditionCache) : Prop :=
  ∀ pindexPrev state, cache pindexPrev = some state → state = deployment.stateAfter nTime pindexPrev

variable {deployment nTime}

theorem Agrees.set (h : deployment.Agrees nTime cache) {state : ThresholdState}
    (hstate : state = deployment.stateAfter nTime pindexPrev) :
    deployment.Agrees nTime (cache.set pindexPrev state) := by
  intro other found hfound
  rw [ThresholdConditionCache.set] at hfound
  split at hfound
  next heq =>
    rw [heq, ← hstate]
    exact (Option.some.inj hfound).symm
  next => exact h other found hfound

/-- The blocks that can be asked for: those of a tree and the null pointer. -/
def Known (tree : HeaderTree) (pindexPrev : CBlockIndex) : Prop := pindexPrev = [] ∨
    pindexPrev ∈ tree.blocks

theorem Known.of_suffix (h : Known tree pindexPrev) (hsuffix : ancestor <:+ pindexPrev) :
    Known tree ancestor := by
  by_cases hnull : ancestor = []
  · exact .inl hnull
  rcases h with rfl | h
  · exact .inl (suffix_nil.mp hsuffix)
  · exact .inr (tree.getMedianTimePast_mono h hsuffix hnull).1

/-- Before the start time the state is defined. -/
theorem stateAfter_of_early (hmem : pindexPrev ∈ tree.blocks)
    (hearly : getMedianTimePast tree.nTime pindexPrev < deployment.beginTime) :
    deployment.stateAfter tree.nTime pindexPrev = .defined := by
  induction pindexPrev using stateAfter.induct deployment with
  | case1 => exact stateAfter_nil deployment tree.nTime
  | case2 pindexPrev hnull ih =>
    have hbefore :
        deployment.stateAfter tree.nTime (deployment.previousPeriodParent pindexPrev) =
        .defined := by
      by_cases hfirst : deployment.previousPeriodParent pindexPrev = []
      · rw [hfirst, stateAfter_nil]
      · obtain ⟨hmem', hle⟩ :=
          tree.getMedianTimePast_mono hmem
            (deployment.previousPeriodParent_suffix pindexPrev) hfirst
        exact ih hmem' (hle.trans_lt hearly)
    rw [stateAfter_of_ne deployment tree.nTime hnull, hbefore, stateNext,
      if_neg (not_le.mpr hearly)]

/-! ## `GetStateFor` -/

/-- Blocks that follow each other in steps of a period, after a first one. -/
def Periods (deployment : Deployment) : CBlockIndex → List CBlockIndex → Prop
  | _, [] => True
  | first, next :: later =>
    next ≠ [] ∧ deployment.previousPeriodParent next = first ∧ Periods deployment next later

/-- The walk forward computes the states of the recursion. -/
theorem walkForward_spec {first : CBlockIndex} {todo : List CBlockIndex}
    (hagrees : deployment.Agrees nTime cache) (hperiods : Periods deployment first todo) :
    ∃ cache', deployment.walkForward nTime todo (deployment.stateAfter nTime first) cache =
        (deployment.stateAfter nTime ((first :: todo).getLast (cons_ne_nil _ _)), cache') ∧
      deployment.Agrees nTime cache' := by
  induction todo generalizing first cache with
  | nil => exact ⟨cache, rfl, hagrees⟩
  | cons next later ih =>
    obtain ⟨hnull, rfl, hlater⟩ := hperiods
    have hstate := stateAfter_of_ne deployment nTime hnull
    rw [walkForward, ← hstate]
    exact ih (hagrees.set rfl) hlater

section

variable (hagrees : deployment.Agrees tree.nTime cache) (hknown : Known tree pindexPrev)

include hagrees hknown

/-- The walk back ends at a block with a known state, and what is to be computed follows it. -/
theorem walkBack_spec (vToCompute : List CBlockIndex)
    (hperiods : Periods deployment pindexPrev vToCompute) :
    ∃ known todo cache', deployment.walkBack tree.nTime cache pindexPrev vToCompute =
      (known, todo, cache') ∧
      deployment.Agrees tree.nTime cache' ∧
      cache' known = some (deployment.stateAfter tree.nTime known) ∧
      Periods deployment known todo ∧
      (known :: todo).getLast (cons_ne_nil _ _) = (pindexPrev :: vToCompute).getLast
        (cons_ne_nil _ _) := by
  fun_induction walkBack with
  | case1 pindexPrev vToCompute hcached =>
    obtain ⟨state, hcached⟩ := Option.isSome_iff_exists.mp hcached
    refine ⟨_, _, _, rfl, hagrees, ?_, hperiods, rfl⟩
    rw [hcached, hagrees pindexPrev state hcached]
  | case2 vToCompute _ =>
    have hstate := (stateAfter_nil deployment tree.nTime).symm
    refine ⟨_, _, _, rfl, hagrees.set hstate, ?_, hperiods, rfl⟩
    rw [ThresholdConditionCache.set, if_pos rfl, hstate]
  | case3 pindexPrev vToCompute _ hnull hearly =>
    have hstate := (stateAfter_of_early (hknown.resolve_left hnull) hearly).symm
    refine ⟨_, _, _, rfl, hagrees.set hstate, ?_, hperiods, rfl⟩
    rw [ThresholdConditionCache.set, if_pos rfl, hstate]
  | case4 pindexPrev vToCompute _ hnull _ ih =>
    exact ih (hknown.of_suffix (deployment.previousPeriodParent_suffix pindexPrev))
      ⟨hnull, rfl, hperiods⟩

/-- `GetStateFor` returns the state of the recursion. -/
theorem getStateFor_spec : ∃ cache', deployment.getStateFor tree.nTime pindexPrev cache =
        some (deployment.state tree.nTime pindexPrev, cache') ∧
        deployment.Agrees tree.nTime cache' := by
  rw [getStateFor, state]
  split
  · exact ⟨cache, rfl, hagrees⟩
  split
  · exact ⟨cache, rfl, hagrees⟩
  obtain ⟨_, _, cache', hwalk, hagrees', hstate, hperiods, hlast⟩ :=
    walkBack_spec hagrees (hknown.of_suffix (deployment.periodParent_suffix pindexPrev)) [] trivial
  obtain ⟨cache'', hforward, hagrees''⟩ := walkForward_spec hagrees' hperiods
  rw [hwalk]
  simp only [hstate, hforward, hlast]
  exact ⟨cache'', rfl, hagrees''⟩

/-! ## `GetStateSinceHeightFor` -/

/-- The loop goes down to the first period with the same state. -/
theorem sinceLoop_spec (hactive : deployment.beginTime ≠ ALWAYS_ACTIVE)
    (hnever : deployment.beginTime ≠ NEVER_ACTIVE) (hdvd : deployment.period ∣ pindexPrev.length) :
    ∃ cache', deployment.sinceLoop tree.nTime
          (deployment.stateAfter tree.nTime pindexPrev) pindexPrev
          (deployment.previousPeriodParent pindexPrev) cache =
        some (deployment.sinceHeightAfter tree.nTime pindexPrev, cache') ∧
      deployment.Agrees tree.nTime cache' := by
  induction pindexPrev using (measure length).wf.induction generalizing cache with
  | _ pindexPrev ih =>
    have hknown' := hknown.of_suffix (deployment.previousPeriodParent_suffix pindexPrev)
    have hdvd' := deployment.dvd_length_previousPeriodParent hdvd
    rw [sinceLoop, sinceHeightAfter]
    by_cases hfirst : deployment.previousPeriodParent pindexPrev = []
    · rw [dif_pos hfirst, if_pos hfirst]
      exact ⟨cache, rfl, hagrees⟩
    have hne : pindexPrev ≠ [] := by
      rintro rfl
      exact hfirst (suffix_nil.mp (deployment.previousPeriodParent_suffix []))
    obtain ⟨cache', hstate, hagrees'⟩ := getStateFor_spec hagrees hknown'
    rw [state, if_neg hactive, if_neg hnever, periodParent_eq, Nat.mod_eq_zero_of_dvd hdvd',
      drop_zero] at hstate
    rw [dif_neg hfirst, if_neg hfirst, hstate]
    dsimp only
    split
    next hsame =>
      rw [← hsame]
      exact ih _ (deployment.length_previousPeriodParent_lt hne) hagrees' hknown' hdvd'
    next => exact ⟨cache', rfl, hagrees'⟩

/-- `GetStateSinceHeightFor` returns the height of the recursion. -/
theorem getStateSinceHeightFor_spec :
        ∃ cache', deployment.getStateSinceHeightFor tree.nTime pindexPrev cache =
        some (deployment.sinceHeight tree.nTime pindexPrev, cache') ∧
      deployment.Agrees tree.nTime cache' := by
  rw [getStateSinceHeightFor, sinceHeight]
  split
  · exact ⟨cache, rfl, hagrees⟩
  next hfixed =>
  obtain ⟨hactive, hnever⟩ := not_or.mp hfixed
  obtain ⟨cache', hstate, hagrees'⟩ := getStateFor_spec hagrees hknown
  rw [hstate]
  simp only [Option.bind_eq_bind, Option.bind_some]
  split
  · exact ⟨cache', rfl, hagrees'⟩
  next hstarted =>
    rw [state, if_neg hactive, if_neg hnever] at hstarted ⊢
    have hnull : deployment.periodParent pindexPrev ≠ [] := by
      intro hnull
      rw [hnull, stateAfter_nil] at hstarted
      exact hstarted rfl
    rw [if_neg hnull]
    exact sinceLoop_spec hagrees' (hknown.of_suffix (deployment.periodParent_suffix pindexPrev))
      hactive hnever (deployment.dvd_length_periodParent pindexPrev)

end

/-! ## Sequences of calls -/

theorem ask_spec {query : Query}
    (hagrees : deployment.Agrees tree.nTime cache) (hknown : Known tree query.pindexPrev) :
    ∃ cache', deployment.ask tree.nTime cache query = some
      (deployment.answer tree.nTime query, cache') ∧ deployment.Agrees tree.nTime cache' := by
  cases query with
  | stateFor pindexPrev =>
    change Known tree pindexPrev at hknown
    obtain ⟨cache', hstate, hagrees'⟩ := getStateFor_spec hagrees hknown
    refine ⟨cache', ?_, hagrees'⟩
    simp only [ask, hstate, Option.bind_eq_bind, Option.bind_some]
    rfl
  | sinceHeightFor pindexPrev =>
    change Known tree pindexPrev at hknown
    obtain ⟨cache', hheight, hagrees'⟩ := getStateSinceHeightFor_spec hagrees hknown
    refine ⟨cache', ?_, hagrees'⟩
    simp only [ask, hheight, Option.bind_eq_bind, Option.bind_some]
    rfl

theorem askAll_spec {queries : List Query}
    (hagrees : deployment.Agrees tree.nTime cache) (hknown : ∀ query ∈ queries,
      Known tree query.pindexPrev) :
    deployment.askAll tree.nTime queries cache = some
      (queries.map (deployment.answer tree.nTime)) := by
  induction queries generalizing cache with
  | nil => rfl
  | cons query queries ih =>
    obtain ⟨_, hask, hagrees'⟩ := ask_spec hagrees (hknown query mem_cons_self)
    have hlater := ih hagrees' fun later hmem => hknown later (mem_cons_of_mem _ hmem)
    simp only [askAll, hask, Option.bind_eq_bind, Option.bind_some, hlater]
    rfl

/-! ## Final states -/

/-- The states that are not left. -/
def Final (state : ThresholdState) : Prop := state = .active ∨ state = .failed

theorem stateNext_of_final {state : ThresholdState} (h : Final state) (pindexPrev : CBlockIndex) :
    deployment.stateNext nTime state pindexPrev = state := by
  rcases h with rfl | rfl <;> rfl

/-- A final state stays along the last blocks of the periods of a chain. -/
theorem stateAfter_of_final (hsuffix : ancestor <:+ pindexPrev)
    (hdvd : deployment.period ∣ ancestor.length) (hdvd' : deployment.period ∣ pindexPrev.length)
    (hfinal : Final (deployment.stateAfter nTime ancestor)) :
    deployment.stateAfter nTime pindexPrev = deployment.stateAfter nTime ancestor := by
  induction pindexPrev using (measure length).wf.induction with
  | _ pindexPrev ih =>
    by_cases hsame : ancestor = pindexPrev
    · rw [hsame]
    have hlt := Nat.lt_of_le_of_ne hsuffix.length_le fun h => hsame (hsuffix.eq_of_length h)
    have hne : pindexPrev ≠ [] := ne_nil_of_length_pos (Nat.zero_lt_of_lt hlt)
    have hperiod := Nat.le_of_dvd (Nat.sub_pos_of_lt hlt) (Nat.dvd_sub hdvd' hdvd)
    have hbetween : ancestor <:+ deployment.previousPeriodParent pindexPrev := by
      apply suffix_of_suffix_length_le hsuffix (deployment.previousPeriodParent_suffix pindexPrev)
      rw [previousPeriodParent_eq, length_drop]
      omega
    have hbefore := ih _ (deployment.length_previousPeriodParent_lt hne) hbetween
      (deployment.dvd_length_previousPeriodParent hdvd')
    rw [stateAfter_of_ne deployment nTime hne, hbefore, stateNext_of_final hfinal]

theorem state_of_final (hsuffix : ancestor <:+ pindexPrev)
    (hfinal : Final (deployment.state nTime ancestor)) :
    deployment.state nTime pindexPrev = deployment.state nTime ancestor := by
  rw [state] at hfinal ⊢
  rw [state]
  split
  · rfl
  next hactive =>
    rw [if_neg hactive] at hfinal
    split
    · rfl
    next hnever =>
      rw [if_neg hnever] at hfinal
      apply stateAfter_of_final _ (deployment.dvd_length_periodParent _)
        (deployment.dvd_length_periodParent _) hfinal
      apply suffix_of_suffix_length_le ((deployment.periodParent_suffix ancestor).trans hsuffix)
        (deployment.periodParent_suffix pindexPrev)
      rw [periodParent_eq, periodParent_eq, length_drop, length_drop]
      have hfloor := Nat.div_le_div_right (c := deployment.period) hsuffix.length_le
      have hmul := Nat.mul_le_mul_left deployment.period hfloor
      have hleft := Nat.div_add_mod ancestor.length deployment.period
      have hright := Nat.div_add_mod pindexPrev.length deployment.period
      omega

/-- The last block of the period before is determined by its height. -/
theorem periodParent_of_suffix {parent : CBlockIndex} (hsuffix : parent <:+ pindexPrev)
    (hlength : parent.length = pindexPrev.length / deployment.period * deployment.period) :
    deployment.periodParent pindexPrev = parent := by
  have hparent := deployment.periodParent_suffix pindexPrev
  have hequal : (deployment.periodParent pindexPrev).length = parent.length := by
    have hdiv := Nat.div_add_mod' pindexPrev.length deployment.period
    rw [periodParent_eq, length_drop, hlength]
    omega
  exact (suffix_of_suffix_length_le hparent hsuffix hequal.le).eq_of_length hequal

/-- The cache does not show: for all deployments and all sequences of calls on blocks of a tree,
each answer is that of the recursion over the periods. Active and failed deployments stay so along a
chain, and the blocks of a period after one last block of the period before have one state. -/
theorem cache_transparent (tree : HeaderTree) (deployment : Deployment) :
    (∀ queries : List Query, (∀ query ∈ queries, Known tree query.pindexPrev) →
      deployment.askAll tree.nTime queries .empty = some
        (queries.map (deployment.answer tree.nTime))) ∧
    (∀ ancestor pindexPrev : CBlockIndex, ancestor <:+ pindexPrev →
      Final (deployment.state tree.nTime ancestor) →
      deployment.state tree.nTime pindexPrev = deployment.state tree.nTime ancestor) ∧
    ∀ parent first second : CBlockIndex, parent <:+ first → parent <:+ second →
      parent.length = first.length / deployment.period * deployment.period →
      parent.length = second.length / deployment.period * deployment.period →
      deployment.state tree.nTime first = deployment.state tree.nTime second := by
  refine ⟨?_, ?_, ?_⟩
  · intro queries hknown
    exact askAll_spec nofun hknown
  · intro ancestor pindexPrev hsuffix hfinal
    exact state_of_final hsuffix hfinal
  · intro parent first second hfirst hsecond hlength hlength'
    rw [state, state, periodParent_of_suffix hfirst hlength,
      periodParent_of_suffix hsecond hlength']

/-- A genesis block and one block after it. -/
def twoBlocks : HeaderTree where
  blocks := {pindex | pindex = [1] ∨ pindex = [2, 1]}
  nTime pindex := UInt32.ofNat (10 * pindex.length)
  pprev_mem := by
    rintro hash pprev (heq | heq) hne
    · cases heq
      exact absurd rfl hne
    · cases heq
      exact Or.inl rfl
  time_gt := by
    rintro hash pprev (heq | heq) hne
    · cases heq
      exact absurd rfl hne
    · cases heq
      simp [getMedianTimePast, lastTimes, Math.sorted, nMedianTimeSpan]

/-- A deployment with periods of one block that is signalled by every block. -/
def quickDeployment : Deployment where
  period := 1
  threshold := 1
  minActivationHeight := 0
  beginTime := 0
  endTime := 100
  condition _ := true
  period_pos := Nat.one_pos

/-- Two calls for the second block, the other way round than its ancestors. -/
theorem cache_transparent_twoBlocks :
    quickDeployment.askAll twoBlocks.nTime [.sinceHeightFor [2, 1], .stateFor [1]] .empty =
      some [.height (quickDeployment.sinceHeight twoBlocks.nTime [2, 1]),
        .state (quickDeployment.state twoBlocks.nTime [1])] := by
  apply (cache_transparent twoBlocks quickDeployment).1
  intro query hquery
  rcases mem_pair.mp hquery with rfl | rfl
  · exact .inr (.inr rfl)
  · exact .inr (.inl rfl)

end Deployment

end BtcSharp
