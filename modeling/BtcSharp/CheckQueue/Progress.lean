/-
# Every round of checks ends

In a fair run a call of `Complete` returns. As long as there are checks in the queue the master
takes them itself, since it waits only when the queue is empty; as long as a thread has a batch
that thread goes on; and when nothing is left to do the master was notified, or is not waiting.
-/

import BtcSharp.CheckQueue.Verdict

namespace BtcSharp

open Function Math

namespace CCheckQueue

variable {T R : Type*} {n : Nat} {run : T → Option R} {nBatchSize : Nat} {s s' : System n T R}
  {t : Thread n}

/-- A thread that the scheduler may not pass over forever. -/
def Ready (s : System n T R) (t : Thread n) : Prop :=
  match s.phase t with
  | .outside => False
  | .waiting notified _ => notified = true
  | _ => True

/-- An infinite run, in which nothing may happen for a while. -/
structure Run (run : T → Option R) (nBatchSize : Nat) (n : Nat) where
  state : Nat → System n T R
  event : Nat → Option (Event n T R)
  start : state 0 = {}
  step : ∀ i, match event i with
    | none => state (i + 1) = state i
    | some happens => Step run nBatchSize (state i) happens (state (i + 1))

/-- No thread that could go on is passed over forever. -/
def Run.Fair (r : Run run nBatchSize n) : Prop :=
  WeaklyFair Ready r.state fun i => (r.event i).map Event.actor

/-- In every round the checks can be counted. -/
def Run.Countable (r : Run run nBatchSize n) : Prop := ∀ i, CCheckQueue.Countable (r.state i)

theorem Run.reaches (r : Run run nBatchSize n) (hfew : r.Countable) (i : Nat) :
    Reaches run nBatchSize (r.state i) := by
  induction i with
  | zero => exact r.start ▸ .start
  | succ i ih =>
    have hstep := r.step i
    cases hevent : r.event i with
    | none =>
      rw [hevent] at hstep
      exact hstep ▸ ih
    | some happens =>
      rw [hevent] at hstep
      exact ih.step hstep (hfew _)

/-- The master has called `Complete`. -/
def Completing (s : System n T R) : Prop :=
  match s.phase none with
  | .outside | .notifying _ => False
  | _ => True

/-- What a thread still has to do for its batch. -/
def Phase.load : Phase T R → Nat
  | .working vChecks _ _ => vChecks.length + 1
  | _ => 0

/-- What is left to do in this round, where a check that is queued has to be taken first. -/
def workLeft (s : System n T R) : Nat := 3 * s.shared.queue.length + ∑ t, (s.phase t).load

/-- A thread whose next step brings the round forward. -/
def Helpful (s : System n T R) (t : Thread n) : Prop :=
  0 < (s.phase t).load ∨ t = none ∧ (s.shared.queue ≠ [] ∨ s.shared.nTodo = 0)

theorem load_update (phase : Thread n → Phase T R) (t : Thread n) (new : Phase T R) :
    ∑ other, (update phase t new other).load + (phase t).load =
      ∑ other, (phase other).load + new.load := sum_update (fun _ => Phase.load) phase t new

theorem load_update_self (phase : Thread n → Phase T R) (new : Phase T R) :
    (update phase t new t).load = new.load := by
  rw [update_self]

theorem Phase.woken_load (phase : Phase T R) : phase.woken.load = phase.load := by
  cases phase <;> rfl

theorem load_notifyMaster (phase : Thread n → Phase T R) :
    ∑ other, (notifyMaster phase other).load = ∑ other, (phase other).load := by
  have hupdate := load_update phase none (phase none).woken
  rw [Phase.woken_load] at hupdate
  exact Nat.add_right_cancel hupdate

variable {released : System n T R}

/-- Giving back a batch is work done. -/
theorem Released.workLeft_eq (h : Released s t released) :
    workLeft released + (s.phase t).load = workLeft s := by
  have hsum : ∀ {phase : Thread n → Phase T R} (kept : Option R), phase t = s.phase t →
      ∑ other, (phase other).load = ∑ other, (s.phase other).load →
      ∑ other, (update phase t (.serving kept) other).load + (s.phase t).load =
        ∑ other, (s.phase other).load := by
    intro phase kept hself heq
    rw [← hself, load_update, heq]
    rfl
  unfold workLeft
  rw [h.queue, Nat.add_assoc]
  congr 1
  cases h with
  | entering => exact hsum none rfl rfl
  | waiting => exact hsum _ rfl rfl
  | working hworking hphase =>
    rcases hphase with ⟨rfl, -⟩ | ⟨rfl, hne⟩
    · exact hsum _ rfl rfl
    · exact hsum _ (update_of_ne hne _ _) (load_notifyMaster s.phase)

theorem Released.serving (h : Released s t released) : (released.phase t).load = 0 := by
  cases h <;> exact load_update_self _ _

/-- Taking a batch is work done. -/
theorem workLeft_take {local_result : Option R} (hserving : (s.phase t).load = 0)
    (hqueue : s.shared.queue ≠ []) : workLeft (take nBatchSize s t local_result) < workLeft s := by
  have hpos := batchSize_pos nBatchSize s.shared
  have hle := batchSize_le nBatchSize hqueue
  unfold take workLeft
  dsimp only
  generalize batchSize nBatchSize s.shared = nNow at hpos hle ⊢
  generalize hbatch :
    (if s.shared.m_result.isNone then s.shared.queue.drop (s.shared.queue.length - nNow)
    else []) = batch
  have hload : batch.length ≤ nNow := by
    rw [← hbatch]
    split
    · rw [List.length_drop]
      omega
    · exact Nat.zero_le _
  have hlength : (s.shared.queue.take (s.shared.queue.length - nNow)).length =
    s.shared.queue.length - nNow :=
    List.length_take_of_le (Nat.sub_le _ _)
  have hupdate := load_update s.phase t (.working batch nNow local_result)
  rw [Phase.load] at hupdate
  omega

theorem workLeft_wait {local_result : Option R} (hserving : (s.phase t).load = 0) :
    workLeft (wait s t local_result) = workLeft s := by
  have hupdate := load_update s.phase t (.waiting false local_result)
  rw [hserving] at hupdate
  exact congrArg (3 * s.shared.queue.length + ·) hupdate

/-- A thread that waits or enters and finds nothing leaves all as it is for the others. -/
theorem Released.helpful {local_result : Option R} (h : Released s t released)
    (hload : (s.phase t).load = 0) (hqueue : released.shared.queue = [])
    (hstay : ¬ (t = none ∧ released.shared.nTodo = 0)) {other : Thread n}
      (hhelpful : Helpful s other) : t ≠ other ∧ Helpful (wait released t local_result) other := by
  have htodo : released.shared.nTodo = s.shared.nTodo := by
    cases h with
    | entering => rfl
    | waiting => rfl
    | working hworking => rw [hworking] at hload; cases hload
  rw [h.queue] at hqueue
  have hne : t ≠ other := by
    rintro rfl
    rcases hhelpful with hpos | ⟨hmaster, hsome | hdone⟩
    · exact absurd hload hpos.ne'
    · exact hsome hqueue
    · exact hstay ⟨hmaster, htodo.trans hdone⟩
  have hother : ((wait released t local_result).phase other) = s.phase other := by
    show update released.phase t _ other = _
    rw [update_of_ne hne.symm]
    cases h with
    | entering | waiting => exact update_of_ne hne.symm _ _
    | working hworking => rw [hworking] at hload; cases hload
  refine ⟨hne, hhelpful.imp (fun hpos => hother.symm ▸ hpos) fun ⟨hmaster, hwork⟩ => ⟨hmaster, ?_⟩⟩
  exact hwork.imp (absurd hqueue) htodo.trans

theorem Completing.update {phase : Thread n → Phase T R} {new : Phase T R} (h : Completing s)
    (hphase : s'.phase = update phase t new) (hother : t ≠ none → phase none = s.phase none ∨
      phase none = (s.phase none).woken)
    (hnew : t = none → new ≠ .outside ∧ ∀ size, new ≠ .notifying size) : Completing s' := by
  unfold Completing at *
  rw [hphase]
  by_cases heq : t = none
  · rw [heq, update_self]
    cases new with
    | outside => exact absurd rfl (hnew heq).1
    | notifying size => exact absurd rfl ((hnew heq).2 size)
    | _ => trivial
  rw [update_of_ne (Ne.symm heq)]
  rcases hother heq with hsame | hwoken
  · rw [hsame]
    exact h
  rw [hwoken]
  cases hmaster : s.phase none with
  | outside | notifying size => rw [hmaster] at h; exact h
  | _ => trivial

theorem Released.master (h : Released s t released) (hne : t ≠ none) :
    released.phase none = s.phase none ∨ released.phase none = (s.phase none).woken := by
  cases h with
  | entering | waiting => exact .inl (update_of_ne hne.symm _ _)
  | @working nNow local_result phase hworking hphase =>
    show update phase t _ none = _ ∨ update phase t _ none = _
    rw [update_of_ne hne.symm]
    rcases hphase with ⟨rfl, -⟩ | ⟨rfl, -⟩
    · exact .inl rfl
    · exact .inr rfl

theorem Released.worker (h : Released s none released) (worker : Fin n) :
    released.phase (some worker) = s.phase (some worker) := by
  have hother : ∀ new : Phase T R, update s.phase none new (some worker) = s.phase (some worker) :=
    fun new => update_of_ne (Option.some_ne_none worker) new s.phase
  cases h with
  | entering => exact hother (.serving none)
  | @waiting notified local_result => exact hother (.serving local_result)
  | @working nNow local_result phase hworking hphase =>
    obtain ⟨rfl, -⟩ := hphase.resolve_right fun hnotify => hnotify.2 rfl
    exact hother (.serving (keepResult local_result s.shared.m_result).1)

/-- What a step does to a round that the master waits for. -/
theorem Completing.step {event : Event n T R} (h : Completing s)
    (hstep : Step run nBatchSize s event s')
    (hgoal : ∀ result, event ≠ .ret result) : Completing s' ∧
      (workLeft s' < workLeft s ∨ workLeft s' = workLeft s ∧
        ∀ other, Helpful s other → event.actor ≠ other ∧ Helpful s' other) := by
  have hmaster : s.phase none ≠ .outside ∧ ∀ size, s.phase none ≠ .notifying size := by
    unfold Completing at h
    constructor
    · intro houtside
      rw [houtside] at h
      exact h
    intro size hnotifying
    rw [hnotifying] at h
    exact h
  cases hstep with
  | add vChecks houtside | addNothing houtside => exact absurd houtside hmaster.1
  | @notify size phase hnotifying => exact absurd hnotifying (hmaster.2 size)
  | complete houtside => exact absurd houtside hmaster.1
  | @check t check rest nNow local_result hworking =>
    have hupdate :=
      load_update s.phase t (.working (if (run check).isSome then [] else rest) nNow (run check))
    rw [hworking] at hupdate
    have hless : Phase.load (.working (if (run check).isSome then [] else rest) nNow (run check)) <
        Phase.load (.working (check :: rest) nNow local_result) := by
      split
      · exact Nat.succ_lt_succ (Nat.succ_pos _)
      · exact Nat.lt_succ_self _
    refine ⟨h.update rfl (fun _ => .inl rfl) (fun _ => ⟨nofun, nofun⟩), .inl ?_⟩
    show 3 * s.shared.queue.length + ∑ other, (Function.update s.phase t _ other).load <
      3 * s.shared.queue.length + _
    omega
  | @take released t local_result hrelease hserving hqueue =>
    have hreleased := release_released hrelease
    have hbefore := hreleased.workLeft_eq
    have htake := @workLeft_take T R n nBatchSize released t local_result hreleased.serving hqueue
    refine ⟨h.update rfl hreleased.master (fun _ => ⟨nofun, nofun⟩), .inl ?_⟩
    omega
  | @wait released t local_result hrelease hserving hqueue hstay =>
    have hreleased := release_released hrelease
    have hbefore := hreleased.workLeft_eq
    have hwait := @workLeft_wait T R n released t local_result hreleased.serving
    refine ⟨h.update rfl hreleased.master (fun _ => ⟨nofun, nofun⟩), ?_⟩
    by_cases hload : (s.phase t).load = 0
    · exact .inr ⟨by omega, fun other => hreleased.helpful hload hqueue hstay⟩
    · exact .inl (by omega)
  | ret hrelease => exact absurd rfl (hgoal _)

/-! ## The round ends -/

theorem held_pos {phase : Phase T R} (h : 0 < phase.held) : 0 < phase.load := by
  cases phase with
  | working => exact Nat.succ_pos _
  | _ => exact absurd h (Nat.lt_irrefl 0)

theorem Sound.exists_helpful (h : Sound run s) : ∃ t, Helpful s t := by
  by_cases hqueue : s.shared.queue = []
  · by_cases hheld : ∃ t, 0 < (s.phase t).held
    · obtain ⟨t, hpos⟩ := hheld
      exact ⟨t, .inl (held_pos hpos)⟩
    refine ⟨none, .inr ⟨rfl, .inr ?_⟩⟩
    rw [h.todo, hqueue, Finset.sum_eq_zero fun t _ => Nat.eq_zero_of_not_pos
      fun hpos => hheld ⟨t, hpos⟩]
    rfl
  · exact ⟨none, .inr ⟨rfl, .inl hqueue⟩⟩

theorem Attentive.ready (h : Attentive s) (hcompleting : Completing s) (hhelpful : Helpful s t) :
    Ready s t := by
  unfold Ready
  rcases hhelpful with hpos | ⟨rfl, hwork⟩
  · cases hphase : s.phase t with
    | working => trivial
    | _ => rw [hphase] at hpos; exact absurd hpos (Nat.lt_irrefl 0)
  unfold Completing at hcompleting
  cases hphase : s.phase none with
  | outside => rw [hphase] at hcompleting; exact hcompleting
  | waiting notified local_result =>
    obtain ⟨hqueue, htodo⟩ := h notified local_result hphase
    have hdone := hwork.resolve_left fun hsome => hsome hqueue
    cases notified with
    | false => exact absurd hdone (htodo rfl)
    | true => rfl
  | _ => trivial

theorem Run.returns (r : Run run nBatchSize n) (hfew : r.Countable) (hfair : r.Fair) {i : Nat}
    (hcompleting : Completing (r.state i)) : ∃ j, i ≤ j ∧
      ∃ result, r.event j = some (.ret result) := by
  have hprogress : Progresses Helpful Completing (fun j => ∃ result, r.event j = some (.ret result))
      workLeft r.state fun i => (r.event i).map Event.actor := by
    intro i hcompleting hgoal
    have hstep := r.step i
    cases hevent : r.event i with
    | none =>
      rw [hevent] at hstep
      rw [hstep]
      refine ⟨hcompleting, .inr ⟨rfl, fun t hhelpful => ⟨?_, hhelpful⟩⟩⟩
      show (r.event i).map Event.actor ≠ some t
      rw [hevent]
      exact nofun
    | some happens =>
      rw [hevent] at hstep
      obtain ⟨hnext, hwork⟩ := hcompleting.step hstep fun result heq =>
        hgoal ⟨result, heq ▸ hevent⟩
      refine ⟨hnext, hwork.imp_right fun ⟨hsame, hothers⟩ => ⟨hsame, fun t hhelpful => ?_⟩⟩
      obtain ⟨hactor, hstill⟩ := hothers t hhelpful
      refine ⟨?_, hstill⟩
      show (r.event i).map Event.actor ≠ some t
      rw [hevent]
      exact fun hsome => hactor (Option.some.inj hsome)
  exact eventually_of_fair hfair hprogress (fun i _ => (r.reaches hfew i).sound.1.exists_helpful)
    (fun i _ hin hhelpful => (r.reaches hfew i).sound.2.ready hin hhelpful) hcompleting

/-- What `Complete` says when it returns: nothing of the round is queued or held by a worker, and
the result is that of its checks one after the other. -/
structure Verdict (run : T → Option R) (s : System n T R) (result : Option R) : Prop where
  queue : s.shared.queue = []
  workers : ∀ worker, (s.phase (some worker)).held = 0
  passes : result = none ↔ ∀ check ∈ s.added, run check = none
  fails : ∀ error, result = some error → Fails run s.added error

theorem Reaches.verdict {result : Option R} (h : Reaches run nBatchSize s)
    (hstep : Step run nBatchSize s (.ret result) s') : Verdict run s result := by
  cases hstep with
  | @ret released hrelease hqueue hdone =>
    have hreleased := release_released hrelease
    have hsound := h.sound.1.release hreleased
    have hfew := hreleased.countable h.countable
    obtain ⟨hpasses, hfails⟩ := hsound.verdict hfew hdone
    rw [hreleased.added] at hpasses hfails
    refine ⟨hreleased.queue ▸ hqueue, fun worker => ?_, hpasses, hfails⟩
    have hheld := (hsound.done hfew hdone).2 (some worker)
    exact hreleased.worker worker ▸ hheld

/-- No check is executed more often than it was added. -/
theorem Sound.executed_le (h : Sound run s) : (s.executed : Multiset T) ≤ s.added := by
  rw [← h.conserved]
  exact le_add_of_le_left (le_add_of_nonneg_left (Multiset.zero_le _))

/-- With any number of workers and for every interleaving the parallel checks give the verdict
of the sequential ones, and in a fair run they give one, as long as no round has more checks than
`nTodo` can count. -/
theorem parallel_checks (run : T → Option R) (nBatchSize n : Nat) :
    (∀ s : System n T R, Reaches run nBatchSize s → (s.executed : Multiset T) ≤ s.added ∧
      ∀ result s', Step run nBatchSize s (.ret result) s' → Verdict run s result) ∧
    ∀ r : Run run nBatchSize n, r.Countable → r.Fair → ∀ i, Completing (r.state i) →
      ∃ j, i ≤ j ∧ ∃ result, r.event j = some (.ret result) :=
  ⟨fun _ h => ⟨h.sound.1.executed_le, fun _ _ => h.verdict⟩,
    fun r hfew hfair _ => r.returns hfew hfair⟩

/-! ## A round of two checks -/

def sampleCheck (check : Nat) : Option String := if check % 2 = 1 then some "odd" else none

/-- What the threads have of two checks: the first one is to pass, the second one to fail. -/
def sampleState (shared : CCheckQueue Nat String) (master worker : Phase Nat String)
    (executed : List Nat) : System 1 Nat String where
  shared := shared
  phase
    | none => master
    | some _ => worker
  added := [4, 5]
  executed := executed

/-- A step whose result is given thread by thread. -/
theorem Step.of_phase {s s' : System 1 T R} {event : Event 1 T R} {phase : Thread 1 → Phase T R}
    (h : Step run nBatchSize s event { s' with phase := phase })
    (hmaster : phase none = s'.phase none) (hworker : phase (some 0) = s'.phase (some 0)) :
    Step run nBatchSize s event s' := by
  obtain rfl : phase = s'.phase := by
    funext t
    cases t with
    | none => exact hmaster
    | some worker => rwa [Subsingleton.elim worker 0]
  exact h

/-- The worker takes a check before the master does, the master waits for it, and the worker's
failure is the verdict. -/
def sampleStates : Nat → System 1 Nat String
  | 0 => {}
  | 1 => sampleState { queue := [4, 5], nTodo := 2 } (.notifying 2) .entering []
  | 2 => sampleState { queue := [4, 5], nTodo := 2 } .outside .entering []
  | 3 => sampleState { queue := [4], nTotal := 1, nTodo := 2 } .outside (.working [5] 1 none) []
  | 4 => sampleState { queue := [4], nTotal := 1, nTodo := 2 } .entering (.working [5] 1 none) []
  | 5 => sampleState { nTotal := 2, nTodo := 2 } (.working [4] 1 none) (.working [5] 1 none) []
  | 6 => sampleState { nTotal := 2, nTodo := 2 } (.working [4] 1 none)
      (.working [] 1 (some "odd")) [5]
  | 7 => sampleState { nTotal := 2, nTodo := 2 } (.working [] 1 none)
      (.working [] 1 (some "odd")) [5, 4]
  | 8 => sampleState { nIdle := 1, nTotal := 2, nTodo := 1 } (.waiting false none)
      (.working [] 1 (some "odd")) [5, 4]
  | 9 => sampleState { nIdle := 2, nTotal := 2, m_result := some "odd" } (.waiting true none)
      (.waiting false none) [5, 4]
  | _ => { sampleState { nIdle := 1, nTotal := 1 } .outside (.waiting false none) [] with
      added := [] }

def sampleEvents : Nat → Option (Event 1 Nat String)
  | 0 => some (.add [4, 5])
  | 1 => some .notify
  | 2 => some (.enter (some 0))
  | 3 => some .complete
  | 4 => some (.enter none)
  | 5 => some (.check (some 0))
  | 6 => some (.check none)
  | 7 => some (.enter none)
  | 8 => some (.enter (some 0))
  | 9 => some (.ret (some "odd"))
  | _ => none

def sampleRun : Run sampleCheck 128 1 where
  state := sampleStates
  event := sampleEvents
  start := rfl
  step
    | 0 => .of_phase (.add [4, 5] rfl (List.cons_ne_nil _ _)) rfl rfl
    | 1 => by
      have hnotified : Notified 2 (sampleStates 1).phase (notifyAll (sampleStates 1).phase) := rfl
      exact .of_phase (.notify rfl hnotified) rfl rfl
    | 2 => by
      have hrelease : release (sampleStates 2) (some 0) = some _ := rfl
      exact .of_phase (.take hrelease rfl (List.cons_ne_nil 4 [5])) rfl rfl
    | 3 => .of_phase (.complete rfl) rfl rfl
    | 4 => by
      have hrelease : release (sampleStates 4) none = some _ := rfl
      exact .of_phase (.take hrelease rfl (List.cons_ne_nil 4 [])) rfl rfl
    | 5 => by
      have hworking : (sampleStates 5).phase (some 0) = .working [5] 1 none := rfl
      exact .of_phase (.check hworking) rfl rfl
    | 6 => by
      have hworking : (sampleStates 6).phase none = .working [4] 1 none := rfl
      exact .of_phase (.check hworking) rfl rfl
    | 7 => by
      have hrelease : release (sampleStates 7) none = some _ := rfl
      exact .of_phase (.wait hrelease rfl rfl (by decide)) rfl rfl
    | 8 => by
      have hrelease : release (sampleStates 8) (some 0) = some _ := rfl
      exact .of_phase (.wait hrelease rfl rfl (by decide)) rfl rfl
    | 9 => by
      have hrelease : release (sampleStates 9) none = some _ := rfl
      exact .of_phase (.ret hrelease rfl rfl) rfl rfl
    | _ + 10 => rfl

theorem sampleRun_fair : sampleRun.Fair := by
  intro t i hready
  have hlater := hready (i + 10) (Nat.le_add_right i 10)
  cases t with
  | none => exact absurd hlater id
  | some worker => exact absurd hlater Bool.false_ne_true

theorem sampleRun_countable : sampleRun.Countable := by
  intro i
  have hlength : (sampleStates i).added.length ≤ 2 := by
    unfold sampleStates
    split <;> decide
  exact Nat.lt_of_le_of_lt hlength (by decide)

/-- `Complete`, which is called at time 3, returns, and what it returns at time 9 is the verdict. -/
theorem parallel_checks_sample : (∃ j, 4 ≤ j ∧ ∃ result, sampleRun.event j = some (.ret result)) ∧
      Verdict sampleCheck (sampleRun.state 9) (some "odd") :=
  have h := parallel_checks sampleCheck 128 1
  ⟨h.2 sampleRun sampleRun_countable sampleRun_fair 4 trivial,
    (h.1 _ (sampleRun.reaches sampleRun_countable 9)).2 _ _ (sampleRun.step 9)⟩

/-! ## More checks than numbers -/

/-- `2 ^ 32` checks that fail were added, so many workers have taken a batch, and so many checks
are left in the queue. -/
structure Taken (n workers left : Nat) (s : System n Unit Unit) : Prop where
  reached : Relation.ReflTransGen (fun s s' => ∃ event, Step some (2 ^ 32 - 1) s event s') {} s
  queue : s.shared.queue.length = left
  idle : s.shared.nIdle = 0
  total : s.shared.nTotal = workers
  result : s.shared.m_result = none
  todo : s.shared.nTodo = 0
  master : s.phase none = .outside
  entering : ∀ worker : Fin n, workers ≤ worker → s.phase (some worker) = .entering
  added : s.added ≠ []

variable {workers left : Nat}

theorem exists_taken (n : Nat) : ∃ s, Taken n 0 (2 ^ 32) s := by
  obtain ⟨checks, hlength⟩ : ∃ checks : List Unit, checks.length = 2 ^ 32 :=
    ⟨List.replicate (2 ^ 32) (), List.length_replicate⟩
  have hsome : checks ≠ [] := List.ne_nil_of_length_pos (hlength ▸ Nat.two_pow_pos 32)
  have hadd : Step some (2 ^ 32 - 1) ({} : System n Unit Unit) (.add checks) _ := .add _ rfl hsome
  have hnotify : ∀ phase : Thread n → Phase Unit Unit,
      Notified checks.length phase (notifyAll phase) := by
    intro phase
    rw [Notified, if_neg (hlength ▸ by decide)]
  refine ⟨_, .tail (.single ⟨_, hadd⟩) ⟨_, .notify rfl (hnotify _)⟩, hlength, rfl,
    rfl, rfl, ?_, rfl, fun worker _ => rfl, hsome⟩
  show 0 + UInt32.ofNat checks.length = 0
  rw [hlength]
  decide

theorem release_entering (hentering : s.phase t = .entering) : release s t = some { s with
    shared := { s.shared with nTotal := s.shared.nTotal + 1 }
    phase := Function.update s.phase t (.serving none) } := by
  unfold release
  rw [hentering]

/-- The next worker takes a batch. -/
theorem Taken.step {s : System n Unit Unit} (h : Taken n workers left s) (hworkers : workers < n)
    (hleft : left ≠ 0) : ∃ s', Taken n (workers + 1)
      (left - max 1 (min (2 ^ 32 - 1) (left % 2 ^ 32 / (workers + 2)))) s' := by
  let released : System n Unit Unit := { s with
    shared := { s.shared with nTotal := s.shared.nTotal + 1 }
    phase := Function.update s.phase (some ⟨workers, hworkers⟩) (.serving none) }
  have hrelease : release s (some ⟨workers, hworkers⟩) = some released :=
    release_entering (h.entering ⟨workers, hworkers⟩ (Nat.le_refl _))
  have hqueue : s.shared.queue ≠ [] := fun hnil => hleft (by rw [← h.queue, hnil]; rfl)
  have hsize : batchSize (2 ^ 32 - 1) { s.shared with nTotal := s.shared.nTotal + 1 } =
      max 1 (min (2 ^ 32 - 1) (left % 2 ^ 32 / (workers + 2))) := by
    unfold batchSize
    dsimp only
    rw [h.queue, h.idle, h.total]
    rfl
  have hother : ∀ t, t ≠ some ⟨workers, hworkers⟩ →
      (take (2 ^ 32 - 1) released (some ⟨workers, hworkers⟩) none).phase t = s.phase t := by
    intro t hne
    have htake := update_of_ne hne (.working (if s.shared.m_result.isNone then
      s.shared.queue.drop (s.shared.queue.length - batchSize (2 ^ 32 - 1) released.shared) else [])
      (batchSize (2 ^ 32 - 1) released.shared) none) released.phase
    exact htake.trans (update_of_ne hne _ _)
  refine ⟨_, h.reached.tail ⟨_, .take hrelease (update_self _ _ _) hqueue⟩, ?_, h.idle, ?_,
    h.result, h.todo, (hother none nofun).trans h.master, fun worker hworker => ?_, h.added⟩
  · show (s.shared.queue.take (s.shared.queue.length - batchSize _ _)).length = _
    rw [hsize, List.length_take, h.queue, Nat.min_eq_left (Nat.sub_le _ _)]
  · show s.shared.nTotal + 1 = _
    rw [h.total]
    rfl
  · refine (hother _ fun heq => ?_).trans (h.entering worker (Nat.le_of_succ_le hworker))
    have hval := congrArg Fin.val (Option.some.inj heq)
    simp only at hval
    omega

/-- Workers that are left over take what is left of the queue. -/
theorem Taken.drain {s : System n Unit Unit} (h : Taken n workers left s)
    (henough : workers + left ≤ n) : ∃ workers' s', Taken n workers' 0 s' := by
  induction hlength : left using Nat.strongRecOn generalizing workers s left with
  | ind m ih =>
    subst hlength
    by_cases hleft : left = 0
    · exact ⟨workers, s, hleft ▸ h⟩
    obtain ⟨s', hnext⟩ := h.step (by omega) hleft
    generalize hbatch : max 1 (min (2 ^ 32 - 1) (left % 2 ^ 32 / (workers + 2))) = batch at hnext
    have hpos : 1 ≤ batch := hbatch ▸ Nat.le_max_left _ _
    exact ih (left - batch) (by omega) hnext (by omega) rfl

/-- The first workers take large batches, so that there are enough others for the rest. When all
`2 ^ 32` checks are held by workers nothing seems to be left to do, and `Complete` returns at once
without an error. -/
theorem complete_returns_early : ∃ (n : Nat) (s s' : System n Unit Unit), n < 2 ^ 31 ∧
    Relation.ReflTransGen (fun s s' => ∃ event, Step some (2 ^ 32 - 1) s event s') {} s ∧
    Step some (2 ^ 32 - 1) s (.ret none) s' ∧ ¬ Verdict some s none := by
  obtain ⟨_, hstart⟩ := exists_taken 1717986923
  obtain ⟨_, hfirst⟩ := hstart.step (by decide) (by decide)
  obtain ⟨_, hsecond⟩ := hfirst.step (by decide) (by decide)
  obtain ⟨_, hthird⟩ := hsecond.step (by decide) (by decide)
  obtain ⟨_, hfourth⟩ := hthird.step (by decide) (by decide)
  obtain ⟨workers, s, h⟩ := hfourth.drain (by decide)
  have hqueue := List.eq_nil_of_length_eq_zero h.queue
  have hrelease := release_entering (s := { s with
    phase := Function.update s.phase none .entering }) (update_self _ _ _)
  have hret := @Step.ret Unit Unit _ some (2 ^ 32 - 1) _ _ hrelease hqueue h.todo
  rw [show s.shared.m_result = none from h.result] at hret
  refine ⟨_, _, _, by decide, h.reached.tail ⟨_, .complete h.master⟩, hret, fun hverdict => ?_⟩
  obtain ⟨check, hcheck⟩ := List.exists_mem_of_ne_nil _ h.added
  cases hverdict.passes.mp rfl check hcheck

end CCheckQueue

end BtcSharp
