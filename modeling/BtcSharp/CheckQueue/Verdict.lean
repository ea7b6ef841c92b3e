/-
# The verdict of a round of checks

Every check of a round is in the queue, held by a thread, executed or discarded, and `nTodo`
counts those that are queued or held, modulo the numbers that it has. A check is discarded only
when a failure is recorded in `m_result` or about to be reported by a thread. The result that a
thread keeps from an earlier round is overwritten by its next check, or there is a result already
by the time it reports.
-/

import BtcSharp.CheckQueue.Queue
import BtcSharp.Math.Fairness
import BtcSharp.Math.PointWrites
import Mathlib.Algebra.Order.BigOperators.Group.Finset

namespace BtcSharp

open Function List Math

namespace CCheckQueue

variable {T R : Type*} {n : Nat}

/-- The checks that a thread is counted for in `nTodo`. -/
def Phase.held : Phase T R → Nat
  | .working _ nNow _ => nNow
  | _ => 0

/-- The checks that a thread is going to execute. -/
def Phase.vChecks : Phase T R → Multiset T
  | .working vChecks _ _ => vChecks
  | _ => 0

/-- The result that a thread brings to its next section. -/
def Phase.report : Phase T R → Option R
  | .working [] _ local_result => local_result
  | _ => none

@[simp]
theorem Phase.woken_held (phase : Phase T R) : phase.woken.held = phase.held := by
  cases phase <;> rfl

@[simp]
theorem Phase.woken_vChecks (phase : Phase T R) : phase.woken.vChecks = phase.vChecks := by
  cases phase <;> rfl

@[simp]
theorem Phase.woken_report (phase : Phase T R) : phase.woken.report = phase.report := by
  cases phase <;> rfl

/-- Where the checks of the round are, and what is known about them. -/
structure Sound (run : T → Option R) (s : System n T R) : Prop where
  todo : s.shared.nTodo = UInt32.ofNat (s.shared.queue.length + ∑ t, (s.phase t).held)
  few : s.shared.queue.length + ∑ t, (s.phase t).held ≤ s.added.length
  empty : ∀ t, (s.phase t).held = 0 → (s.phase t).vChecks = 0 ∧ (s.phase t).report = none
  conserved : (s.shared.queue + ∑ t, (s.phase t).vChecks + s.executed + s.discarded : Multiset T) =
    s.added
  result : ∀ error, s.shared.m_result = some error → ∃ check ∈ s.added, run check = some error
  fresh : ∀ t error, (s.phase t).report = some error →
    s.shared.m_result ≠ none ∨ ∃ check ∈ s.added, run check = some error
  recorded : (∃ check ∈ s.executed, run check ≠ none) ∨ s.discarded ≠ [] →
    s.shared.m_result ≠ none ∨ ∃ t, (s.phase t).report ≠ none

variable {run : T → Option R} {nBatchSize : Nat} {s s' : System n T R} {t : Thread n}

/-- The master waits only while there is something to wait for, unless it was notified. -/
def Attentive (s : System n T R) : Prop :=
  ∀ notified local_result, s.phase none = .waiting notified local_result →
    s.shared.queue = [] ∧ (notified = false → s.shared.nTodo ≠ 0)

/-! ## Steps that move no checks -/

/-- Threads have the same checks and reports. -/
def Silent (before after : Thread n → Phase T R) : Prop :=
  ∀ t, (after t).held = (before t).held ∧ (after t).vChecks = (before t).vChecks ∧
    (after t).report = (before t).report

theorem Silent.trans {first second third : Thread n → Phase T R} (h : Silent first second)
    (h' : Silent second third) : Silent first third :=
  fun t => ⟨(h' t).1.trans (h t).1, (h' t).2.1.trans (h t).2.1, (h' t).2.2.trans (h t).2.2⟩

theorem silent_update (before : Thread n → Phase T R) {phase : Phase T R}
    (h : phase.held = (before t).held ∧ phase.vChecks = (before t).vChecks ∧
      phase.report = (before t).report) : Silent before (update before t phase) := by
  intro other
  by_cases heq : other = t
  · subst heq
    rw [update_self]
    exact h
  · rw [update_of_ne heq]
    exact ⟨rfl, rfl, rfl⟩

theorem silent_notifyMaster (phase : Thread n → Phase T R) : Silent phase (notifyMaster phase) :=
  silent_update phase ⟨Phase.woken_held _, Phase.woken_vChecks _, Phase.woken_report _⟩

theorem Notified.silent {size : Nat} {before after : Thread n → Phase T R}
    (h : Notified size before after) : Silent before after := by
  unfold Notified at h
  split at h
  · rcases h with ⟨worker, _, hwaiting, rfl⟩ | ⟨-, rfl⟩
    · apply silent_update
      rw [hwaiting]
      exact ⟨rfl, rfl, rfl⟩
    · exact fun _ => ⟨rfl, rfl, rfl⟩
  subst h
  intro t
  cases t with
  | none => exact ⟨rfl, rfl, rfl⟩
  | some worker => exact ⟨Phase.woken_held _, Phase.woken_vChecks _, Phase.woken_report _⟩

/-- Checks are added to the queue, and the threads go on with what they have. -/
theorem Sound.add (h : Sound run s) (hsilent : Silent s.phase s'.phase) (vChecks : List T)
    (hqueue : s'.shared.queue = s.shared.queue ++ vChecks)
      (hresult : s'.shared.m_result = s.shared.m_result)
    (htodo : s'.shared.nTodo = s.shared.nTodo + UInt32.ofNat vChecks.length)
      (hadded : s'.added = s.added ++ vChecks)
    (hexecuted : s'.executed = s.executed) (hdiscarded : s'.discarded = s.discarded) :
      Sound run s' := by
  have hmore : ∀ {error}, (∃ check ∈ s.added, run check = some error) →
    ∃ check ∈ s'.added, run check = some error :=
    fun ⟨check, hmem, hrun⟩ => ⟨check, hadded ▸ mem_append_left _ hmem, hrun⟩
  have hheld := Finset.sum_congr rfl fun t (_ : t ∈ Finset.univ) => (hsilent t).1
  constructor
  · rw [hqueue, htodo, hheld, length_append, h.todo, ← UInt32.ofNat_add, Nat.add_right_comm]
  · rw [hqueue, hheld, hadded, length_append, length_append, Nat.add_right_comm]
    exact Nat.add_le_add_right h.few _
  · intro t hheld
    rw [(hsilent t).2.1, (hsilent t).2.2]
    exact h.empty t ((hsilent t).1 ▸ hheld)
  · rw [hqueue, hexecuted, hdiscarded, hadded, Finset.sum_congr rfl fun t _ => (hsilent t).2.1,
      ← Multiset.coe_add, ← Multiset.coe_add, ← h.conserved]
    ac_rfl
  · exact fun error herror => hmore (h.result error (hresult ▸ herror))
  · intro t error hreport
    rw [hresult]
    exact (h.fresh t error ((hsilent t).2.2 ▸ hreport)).imp_right hmore
  · rw [hexecuted, hdiscarded, hresult]
    intro hlost
    apply (h.recorded hlost).imp_right
    exact fun ⟨t, hreport⟩ => ⟨t, (hsilent t).2.2.symm ▸ hreport⟩

/-- Only the phases and the numbers of threads change. -/
theorem Sound.silent (h : Sound run s) {phase : Thread n → Phase T R}
    (hsilent : Silent s.phase phase) (nIdle nTotal : Int) :
    Sound run
      { s with shared := { s.shared with nIdle := nIdle, nTotal := nTotal }, phase := phase } :=
  h.add hsilent [] (append_nil _).symm rfl (UInt32.add_zero _).symm (append_nil _).symm rfl rfl

/-! ## Steps that move checks -/

/-- A check of the round failed with this error. -/
def Fails (run : T → Option R) (added : List T) (error : R) : Prop :=
  ∃ check ∈ added, run check = some error

/-- A check failed, or some were not executed. -/
def Lost (run : T → Option R) (s : System n T R) : Prop :=
  (∃ check ∈ s.executed, run check ≠ none) ∨ s.discarded ≠ []

variable {new : Phase T R} {local_result m_result : Option R} {released : System n T R}
  {phase : Thread n → Phase T R}

/-- One thread goes on, and the rest of the threads have no part in it. -/
theorem Sound.replace (h : Sound run s) (hphase : s'.phase = update s.phase t new)
    (htodo : s'.shared.nTodo + UInt32.ofNat (s.shared.queue.length + (s.phase t).held) =
      s.shared.nTodo + UInt32.ofNat (s'.shared.queue.length + new.held))
    (hfew : s'.shared.queue.length + new.held ≤ s.shared.queue.length + (s.phase t).held)
    (hempty : new.held = 0 → new.vChecks = 0 ∧ new.report = none)
    (hconserved : (s'.shared.queue + new.vChecks + s'.executed + s'.discarded : Multiset T) =
      s.shared.queue + (s.phase t).vChecks + s.executed + s.discarded)
    (hadded : s'.added = s.added)
    (hkept : s.shared.m_result ≠ none → s'.shared.m_result ≠ none)
    (hresult : ∀ error, s'.shared.m_result = some error →
      s.shared.m_result = some error ∨ Fails run s.added error)
    (hfresh : ∀ error, new.report = some error → s'.shared.m_result ≠ none ∨
      Fails run s.added error)
    (hreported : (s.phase t).report ≠ none → s'.shared.m_result ≠ none ∨ new.report ≠ none)
    (hlost : Lost run s' → Lost run s ∨ s'.shared.m_result ≠ none ∨ new.report ≠ none) :
    Sound run s' := by
  have hself : s'.phase t = new := by rw [hphase, update_self]
  have hother : ∀ other, other ≠ t → s'.phase other = s.phase other := fun other hne => by
    rw [hphase, update_of_ne hne]
  have hreport : s'.shared.m_result ≠ none ∨ new.report ≠ none →
      s'.shared.m_result ≠ none ∨ ∃ other, (s'.phase other).report ≠ none :=
    fun hsome => hsome.imp_right fun hnew => ⟨t, hself.symm ▸ hnew⟩
  have hheld := sum_update (fun _ => Phase.held) s.phase t new
  constructor
  · rw [hphase, ← UInt32.add_left_inj (UInt32.ofNat (s.shared.queue.length + (s.phase t).held)),
      htodo, h.todo, ← UInt32.ofNat_add, ← UInt32.ofNat_add]
    congr 1
    omega
  · have hbefore := h.few
    rw [hphase, hadded]
    omega
  · intro other hzero
    by_cases heq : other = t
    · rw [heq, hself] at hzero ⊢
      exact hempty hzero
    · rw [hother other heq] at hzero ⊢
      exact h.empty other hzero
  · classical
    rw [hphase, hadded]
    ext check
    have hsum := congrArg (Multiset.count check) (sum_update (fun _ => Phase.vChecks) s.phase t new)
    have hbefore := congrArg (Multiset.count check) h.conserved
    have hmoved := congrArg (Multiset.count check) hconserved
    simp only [Multiset.count_add] at hsum hbefore hmoved ⊢
    omega
  · intro error herror
    rw [hadded]
    exact (hresult error herror).elim (h.result error) id
  · intro other error herror
    rw [hadded]
    by_cases heq : other = t
    · rw [heq, hself] at herror
      exact hfresh error herror
    · rw [hother other heq] at herror
      exact (h.fresh other error herror).imp_left hkept
  · intro hafter
    rcases hlost hafter with hbefore | hnow
    · rcases h.recorded hbefore with hsome | ⟨other, hsome⟩
      · exact .inl (hkept hsome)
      by_cases heq : other = t
      · exact hreport (hreported (heq ▸ hsome))
      · exact .inr ⟨other, (hother other heq).symm ▸ hsome⟩
    · exact hreport hnow

theorem Sound.mem_added (h : Sound run s) {check : T} (hcheck : check ∈ (s.phase t).vChecks) :
    check ∈ s.added := by
  have hle : (s.phase t).vChecks ≤ ∑ other, (s.phase other).vChecks :=
    Finset.single_le_sum (fun _ _ => Multiset.zero_le _) (Finset.mem_univ t)
  have hmem := Multiset.mem_of_le hle hcheck
  rw [← Multiset.mem_coe, ← h.conserved]
  simp only [Multiset.mem_add, hmem, true_or, or_true]

/-- A check is executed. -/
theorem Sound.check (h : Sound run s) {check : T} {rest : List T} {nNow : Nat}
    {local_result : Option R} (hworking : s.phase t = .working (check :: rest) nNow local_result) :
    Sound run { s with
      phase :=
      update s.phase t (.working (if (run check).isSome then [] else rest) nNow (run check))
      executed := s.executed ++ [check]
      discarded := if (run check).isSome then s.discarded ++ rest else s.discarded } := by
  have hchecks : (s.phase t).vChecks = check ::ₘ rest := by rw [hworking]; rfl
  have hmem : check ∈ s.added := h.mem_added (hchecks ▸ Multiset.mem_cons_self check rest)
  have hpos : nNow ≠ 0 := by
    intro hzero
    have hempty := (h.empty t (by rw [hworking]; exact hzero)).1
    rw [hchecks] at hempty
    exact Multiset.cons_ne_zero hempty
  apply h.replace rfl
  · rw [hworking]
    rfl
  · rw [hworking]
    exact Nat.le_refl _
  · exact fun hzero => absurd hzero hpos
  · rw [hchecks]
    cases run check with
    | none =>
      show (s.shared.queue : Multiset T) + rest + (s.executed ++ [check] : List T) + s.discarded = _
      rw [← Multiset.coe_add, ← Multiset.singleton_add, Multiset.coe_singleton]
      ac_rfl
    | some error =>
      show (s.shared.queue : Multiset T) + 0 + (s.executed ++ [check] : List T) +
        (s.discarded ++ rest : List T) = _
      rw [← Multiset.coe_add, ← Multiset.coe_add, ← Multiset.singleton_add, Multiset.coe_singleton]
      ac_rfl
  · rfl
  · exact id
  · exact fun error => .inl
  · intro error herror
    refine .inr ⟨check, hmem, ?_⟩
    cases hrun : run check with
    | none =>
      rw [hrun] at herror
      cases rest <;> cases herror
    | some first =>
      rw [hrun] at herror
      exact herror
  · rw [hworking]
    exact absurd rfl
  · intro hlost
    cases hrun : run check with
    | none =>
      rw [hrun] at hlost
      refine .inl (hlost.imp_left fun ⟨other, hother, hfailed⟩ => ⟨other, ?_, hfailed⟩)
      refine (mem_append.mp hother).resolve_right fun hlast => hfailed ?_
      rw [mem_singleton.mp hlast, hrun]
    | some error => exact .inr (.inr (Option.some_ne_none error))

theorem keepResult_ne_none
    (h : m_result ≠ none ∨ local_result ≠ none) : (keepResult local_result m_result).2 ≠ none := by
  cases local_result with
  | none => cases m_result <;> simp_all [keepResult]
  | some => cases m_result <;> simp [keepResult]

theorem keepResult_eq {error : R} (h : (keepResult local_result m_result).2 = some error) :
    m_result = some error ∨ m_result = none ∧ local_result = some error := by
  cases local_result with
  | none | some => cases m_result <;> simp_all [keepResult]

/-- What a thread has given back when it looks for work. -/
inductive Released (s : System n T R) (t : Thread n) : System n T R → Prop
  | entering (hentering : s.phase t = .entering) : Released s t { s with
      shared := { s.shared with nTotal := s.shared.nTotal + 1 }
      phase := Function.update s.phase t (.serving none) }
  | working {nNow : Nat} {local_result : Option R} {phase : Thread n → Phase T R}
      (hworking : s.phase t = .working [] nNow local_result)
      (hphase : phase = s.phase ∧ (t = none ∨ s.shared.nTodo - UInt32.ofNat nNow ≠ 0) ∨
        phase = notifyMaster s.phase ∧ t ≠ none) :
      Released s t { s with
        shared := { s.shared with
          m_result := (keepResult local_result s.shared.m_result).2
          nTodo := s.shared.nTodo - UInt32.ofNat nNow }
        phase := Function.update phase t
          (.serving (keepResult local_result s.shared.m_result).1) }
  | waiting {notified : Bool} {local_result : Option R}
      (hwaiting : s.phase t = .waiting notified local_result) : Released s t { s with
      shared := { s.shared with nIdle := s.shared.nIdle - 1 }
      phase := Function.update s.phase t (.serving local_result) }

theorem release_released (h : release s t = some released) : Released s t released := by
  unfold release at h
  split at h
  case h_1 hentering =>
    cases h
    exact .entering hentering
  case h_2 nNow local_result hworking =>
    cases h
    apply Released.working hworking
    by_cases hnotify : s.shared.nTodo - UInt32.ofNat nNow = 0 ∧ t.isSome = true
    · exact .inr ⟨if_pos hnotify, Option.isSome_iff_ne_none.mp hnotify.2⟩
    refine .inl ⟨if_neg hnotify, ?_⟩
    cases t with
    | none => exact .inl rfl
    | some worker => exact .inr fun hzero => hnotify ⟨hzero, rfl⟩
  case h_3 hwaiting =>
    cases h
    exact .waiting hwaiting
  case h_4 => cases h

theorem Sound.release (h : Sound run s) (hreleased : Released s t released) :
    Sound run released := by
  cases hreleased with
  | entering hentering =>
    exact h.silent (silent_update s.phase (by rw [hentering]; exact ⟨rfl, rfl, rfl⟩)) _ _
  | waiting hwaiting =>
    exact h.silent (silent_update s.phase (by rw [hwaiting]; exact ⟨rfl, rfl, rfl⟩)) _ _
  | @working nNow local_result phase hworking hphase =>
    have hsilent : Silent s.phase phase := by
      rcases hphase with ⟨rfl, -⟩ | ⟨rfl, -⟩
      · exact fun _ => ⟨rfl, rfl, rfl⟩
      · exact silent_notifyMaster s.phase
    have hself : phase t = .working [] nNow local_result := by
      rcases hphase with ⟨rfl, -⟩ | ⟨rfl, hne⟩
      · exact hworking
      · exact (update_of_ne hne _ _).trans hworking
    have hnotified : Sound run { s with phase := phase } := h.silent hsilent _ _
    apply hnotified.replace rfl
    · show s.shared.nTodo - UInt32.ofNat nNow + UInt32.ofNat (_ + (phase t).held) = _
      rw [hself, Nat.add_comm _ (Phase.held _), UInt32.ofNat_add, ← UInt32.add_assoc]
      exact congrArg (· + _) (UInt32.sub_add_cancel _ _)
    · exact Nat.add_le_add_left (Nat.zero_le _) _
    · exact fun _ => ⟨rfl, rfl⟩
    · show _ = (s.shared.queue : Multiset T) + (phase t).vChecks + _ + _
      rw [hself]
      rfl
    · rfl
    · exact fun hsome => keepResult_ne_none (.inl hsome)
    · intro error herror
      rcases keepResult_eq herror with hold | ⟨hnone, hnew⟩
      · exact .inl hold
      · have hfresh := h.fresh t error (by rw [hworking]; exact hnew)
        exact .inr (hfresh.resolve_left fun hsome => hsome hnone)
    · exact nofun
    · show (phase t).report ≠ none → _
      rw [hself]
      exact fun hsome => .inl (keepResult_ne_none (.inr hsome))
    · exact .inl

theorem batchSize_pos (nBatchSize : Nat) (q : CCheckQueue T R) : 0 < batchSize nBatchSize q :=
  Nat.lt_of_lt_of_le Nat.one_pos (Nat.le_max_left _ _)

theorem batchSize_le (nBatchSize : Nat) {q : CCheckQueue T R} (hqueue : q.queue ≠ []) :
    batchSize nBatchSize q ≤ q.queue.length := by
  apply Nat.max_le.mpr
  refine ⟨length_pos_of_ne_nil hqueue, Nat.le_trans (Nat.min_le_right _ _) ?_⟩
  exact Nat.le_trans (Nat.div_le_self _ _) (Nat.mod_le _ _)

/-- A thread takes a batch. -/
theorem Sound.take {local_result : Option R} (h : Sound run s)
    (hserving : s.phase t = .serving local_result) (hqueue : s.shared.queue ≠ []) :
    Sound run (take nBatchSize s t local_result) := by
  have hpos := batchSize_pos nBatchSize s.shared
  have hle := batchSize_le nBatchSize hqueue
  unfold CCheckQueue.take
  generalize batchSize nBatchSize s.shared = nNow at hpos hle ⊢
  have hlength : (s.shared.queue.take (s.shared.queue.length - nNow)).length =
    s.shared.queue.length - nNow :=
    length_take_of_le (Nat.sub_le _ _)
  have hbatch : s.shared.queue.drop (s.shared.queue.length - nNow) ≠ [] := by
    rw [Ne, drop_eq_nil_iff]
    omega
  have hsplit :
      (s.shared.queue : Multiset T) =
      (s.shared.queue.take (s.shared.queue.length - nNow) : List T) +
      (s.shared.queue.drop (s.shared.queue.length - nNow) : List T) := by
    rw [Multiset.coe_add, take_append_drop]
  apply h.replace rfl
  · show _ + UInt32.ofNat (_ + (s.phase t).held) =
      _ + UInt32.ofNat ((s.shared.queue.take _).length + nNow)
    rw [hserving, hlength, Nat.sub_add_cancel hle]
    rfl
  · show (s.shared.queue.take _).length + nNow ≤ _
    omega
  · exact fun hzero => absurd hzero hpos.ne'
  · rw [hserving, hsplit]
    cases s.shared.m_result with
    | none => simp only [Phase.vChecks, Option.isNone_none, if_true, add_zero]
    | some error =>
      simp only [Phase.vChecks, Option.isNone_some, if_false, Bool.false_eq_true,
        ← Multiset.coe_add, Multiset.coe_nil]
      ac_rfl
  · rfl
  · exact id
  · exact fun error => .inl
  · intro error herror
    left
    intro hnone
    rw [hnone, Option.isNone_none, if_pos rfl] at herror
    cases hdrop : s.shared.queue.drop (s.shared.queue.length - nNow) with
    | nil => exact hbatch hdrop
    | cons => rw [hdrop] at herror; cases herror
  · rw [hserving]
    exact absurd rfl
  · intro hlost
    cases hm : s.shared.m_result with
    | none =>
      refine .inl (hlost.imp_right fun hsome => ?_)
      simpa [hm] using hsome
    | some error => exact .inr (.inl (hm ▸ Option.some_ne_none error))

theorem Sound.wait {local_result : Option R} (h : Sound run s)
    (hserving : s.phase t = .serving local_result) : Sound run (wait s t local_result) :=
  h.silent (silent_update s.phase (by rw [hserving]; exact ⟨rfl, rfl, rfl⟩)) _ _

/-- Nothing is held when nothing is to do. -/
theorem Sound.done (h : Sound run s) (hfew : Countable s) (hdone : s.shared.nTodo = 0) :
    s.shared.queue = [] ∧ ∀ t, (s.phase t).held = 0 := by
  have htodo := h.todo
  rw [hdone, eq_comm, UInt32.ofNat_eq_iff_mod_eq_toNat,
    Nat.mod_eq_of_lt (Nat.lt_of_le_of_lt h.few hfew)] at htodo
  obtain ⟨hqueue, hsum⟩ := Nat.add_eq_zero_iff.mp htodo
  exact ⟨eq_nil_of_length_eq_zero hqueue,
    fun t => (Finset.sum_eq_zero_iff.mp hsum) t (Finset.mem_univ t)⟩

/-- The result of a round in which nothing is left to do. -/
theorem Sound.verdict (h : Sound run s) (hfew : Countable s) (hdone : s.shared.nTodo = 0) :
    (s.shared.m_result = none ↔ ∀ check ∈ s.added, run check = none) ∧
      (∀ error, s.shared.m_result = some error → Fails run s.added error) := by
  obtain ⟨hqueue, hheld⟩ := h.done hfew hdone
  have hnothing : ∑ t, (s.phase t).vChecks = 0 :=
    Finset.sum_eq_zero fun t _ => (h.empty t (hheld t)).1
  refine ⟨⟨fun hnone check hcheck => ?_, fun hall => ?_⟩, h.result⟩
  · have hkept : ¬ Lost run s := fun hlost => by
      rcases h.recorded hlost with hsome | ⟨t, hsome⟩
      · exact hsome hnone
      · exact hsome (h.empty t (hheld t)).2
    have hexecuted : check ∈ s.executed := by
      have hconserved := h.conserved
      rw [hqueue, hnothing, not_not.mp fun hne => hkept (Or.inr hne)] at hconserved
      rw [← Multiset.mem_coe, ← hconserved] at hcheck
      simpa using hcheck
    exact not_not.mp fun hfailed => hkept (.inl ⟨check, hexecuted, hfailed⟩)
  · cases hm : s.shared.m_result with
    | none => rfl
    | some error =>
      obtain ⟨check, hcheck, hfailed⟩ := h.result error hm
      exact absurd (hall check hcheck) (hfailed ▸ Option.some_ne_none error)

/-- No thread has a check or a report, and nothing was added. -/
theorem sound_of_idle (hthread : Silent (fun _ => .outside) s.phase)
    (hqueue : s.shared.queue = []) (htodo : s.shared.nTodo = 0) (hresult : s.shared.m_result = none)
    (hadded : s.added = []) (hexecuted : s.executed = []) (hdiscarded : s.discarded = []) :
      Sound run s := by
  constructor
  · rw [htodo, hqueue, Finset.sum_eq_zero fun t _ => (hthread t).1]
    rfl
  · rw [hqueue, Finset.sum_eq_zero fun t _ => (hthread t).1]
    exact Nat.zero_le _
  · exact fun t _ => (hthread t).2
  · rw [hqueue, hadded, hexecuted, hdiscarded, Finset.sum_eq_zero fun t _ => (hthread t).2.1]
    rfl
  · rw [hresult]
    nofun
  · exact fun t error herror => absurd ((hthread t).2.2.symm.trans herror)
      (Option.some_ne_none error).symm
  · rw [hexecuted, hdiscarded]
    rintro (⟨_, hcheck, -⟩ | hne)
    · cases hcheck
    · exact absurd rfl hne

/-- A new round begins with nothing that is left from before. -/
theorem Sound.finish (h : Sound run s) (hfew : Countable s) (hdone : s.shared.nTodo = 0) :
    Sound run (finish s) := by
  obtain ⟨hqueue, hheld⟩ := h.done hfew hdone
  have hidle : Silent (fun _ => .outside) s.phase := fun t => ⟨hheld t, h.empty t (hheld t)⟩
  have hmaster := hidle none
  exact sound_of_idle
    (hidle.trans (silent_update s.phase ⟨hmaster.1.symm, hmaster.2.1.symm, hmaster.2.2.symm⟩))
    hqueue hdone rfl rfl rfl rfl

/-! ## Every step -/

theorem sound_start : Sound run ({} : System n T R) := by
  refine sound_of_idle (fun t => ?_) rfl rfl rfl rfl rfl rfl
  cases t <;> exact ⟨rfl, rfl, rfl⟩

theorem Released.added (h : Released s t released) : released.added = s.added := by
  cases h <;> rfl

theorem Released.countable (h : Released s t released) (hfew : Countable s) :
    Countable released := by
  rw [Countable, h.added]
  exact hfew

theorem Sound.step {event : Event n T R} (h : Sound run s) (hfew : Countable s)
    (hstep : Step run nBatchSize s event s') : Sound run s' := by
  cases hstep with
  | add vChecks hmaster =>
    have hsilent : Silent s.phase (update s.phase none (.notifying vChecks.length)) :=
      silent_update s.phase (by rw [hmaster]; exact ⟨rfl, rfl, rfl⟩)
    exact h.add hsilent vChecks rfl rfl rfl rfl rfl rfl
  | addNothing => exact h
  | @notify size phase hmaster hnotified =>
    obtain ⟨hheld, hchecks, hreport⟩ := hnotified.silent none
    rw [hmaster] at hheld hchecks hreport
    have hsilent : Silent phase (update phase none .outside) :=
      silent_update phase ⟨hheld.symm, hchecks.symm, hreport.symm⟩
    exact h.silent (hnotified.silent.trans hsilent) _ _
  | complete hmaster =>
    exact h.silent (silent_update s.phase (by rw [hmaster]; exact ⟨rfl, rfl, rfl⟩)) _ _
  | check hworking => exact h.check hworking
  | take hrelease hserving hqueue =>
    exact (h.release (release_released hrelease)).take hserving hqueue
  | wait hrelease hserving => exact (h.release (release_released hrelease)).wait hserving
  | ret hrelease hqueue hdone =>
    have hreleased := release_released hrelease
    exact (h.release hreleased).finish (hreleased.countable hfew) hdone

theorem Released.queue (h : Released s t released) : released.shared.queue = s.shared.queue := by
  cases h <;> rfl

def Phase.isWaiting : Phase T R → Bool
  | .waiting _ _ => true
  | _ => false

/-- The master does something else than to wait. -/
theorem attentive_of_update (hphase : s.phase = update phase none new)
    (hnew : new.isWaiting = false) : Attentive s := by
  intro notified local_result hwaiting
  rw [hphase, update_self] at hwaiting
  rw [hwaiting] at hnew
  cases hnew

/-- The master has no part in the step. -/
theorem Attentive.of_eq (h : Attentive s) (hphase : s'.phase none = s.phase none)
    (hqueue : s'.shared.queue = s.shared.queue) (htodo : s'.shared.nTodo = s.shared.nTodo) :
    Attentive s' := by
  intro notified local_result hwaiting
  rw [hqueue, htodo]
  exact h notified local_result (hphase.symm.trans hwaiting)

/-- A worker that gives back the last checks notifies the master. -/
theorem Attentive.release (h : Attentive s) (hreleased : Released s t released)
    (hworker : t ≠ none) : Attentive released := by
  cases hreleased with
  | entering hentering | waiting hother => exact h.of_eq (update_of_ne hworker.symm _ _) rfl rfl
  | @working nNow kept phase hworking hphase =>
    intro notified local_result hwaiting
    have hmaster := (update_of_ne hworker.symm _ _).symm.trans hwaiting
    rcases hphase with ⟨rfl, hleft⟩ | ⟨rfl, -⟩
    · exact ⟨(h notified local_result hmaster).1,
        fun _ => hleft.resolve_left hworker⟩
    have hwoken : (s.phase none).woken = .waiting notified local_result := by
      rwa [notifyMaster, update_self] at hmaster
    cases hbefore : s.phase none with
    | waiting before result =>
      rw [hbefore] at hwoken
      injection hwoken with hnotified
      exact ⟨(h before result hbefore).1, fun hfalse => Bool.noConfusion (hnotified.trans hfalse)⟩
    | _ => rw [hbefore] at hwoken; cases hwoken

theorem Attentive.step {event : Event n T R} (h : Attentive s)
    (hstep : Step run nBatchSize s event s') : Attentive s' := by
  cases hstep with
  | add vChecks hmaster => exact attentive_of_update rfl rfl
  | addNothing => exact h
  | notify hmaster hnotified | complete hmaster => exact attentive_of_update rfl rfl
  | @check t check rest nNow kept hworking =>
    by_cases heq : t = none
    · subst heq
      exact attentive_of_update rfl rfl
    · exact h.of_eq (update_of_ne (.symm heq) _ _) rfl rfl
  | @take released t kept hrelease hserving hqueue =>
    by_cases heq : t = none
    · subst heq
      exact attentive_of_update rfl rfl
    intro notified local_result hwaiting
    have hmaster := (update_of_ne (.symm heq) _ _).symm.trans hwaiting
    have hreleased := h.release (release_released hrelease) heq
    exact absurd (hreleased notified local_result hmaster).1 hqueue
  | @wait released t kept hrelease hserving hqueue hstay =>
    by_cases heq : t = none
    · exact fun _ _ _ => ⟨hqueue, fun _ hzero => hstay ⟨heq, hzero⟩⟩
    · exact (h.release (release_released hrelease) heq).of_eq (update_of_ne (.symm heq) _ _) rfl rfl
  | ret hrelease hqueue hdone => exact attentive_of_update rfl rfl

theorem Reaches.countable (h : Reaches run nBatchSize s) : Countable s := by
  cases h with
  | start => exact Nat.two_pow_pos 32
  | step _ _ hfew => exact hfew

theorem Reaches.sound (h : Reaches run nBatchSize s) : Sound run s ∧ Attentive s := by
  induction h with
  | start => exact ⟨sound_start, nofun⟩
  | step hbefore hstep _ ih => exact ⟨ih.1.step hbefore.countable hstep, ih.2.step hstep⟩

end CCheckQueue

end BtcSharp
