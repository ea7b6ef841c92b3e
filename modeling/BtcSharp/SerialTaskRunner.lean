/-
# The serial task runner

`SerialTaskRunner` runs callbacks one at a time on the threads of a scheduler. A critical section, a
call of `schedule` and the end of a callback are one step each, and any number of threads take them
in any order. If no step that a thread could take is put off forever, every callback is started.
-/

import BtcSharp.Math.Fairness
import Mathlib.Data.List.Basic
import Mathlib.Logic.Relation

namespace BtcSharp

open List Math Relation

/-- The members of the runner, where the threads are, and what happened so far. -/
structure SerialTaskRunner (C : Type) where
  m_callbacks_pending : List C := []
  m_are_callbacks_running : Bool := false
  /-- The tasks in the scheduler. One counts until the first section of its `ProcessQueue`. -/
  tasks : Nat := 0
  /-- Threads before the section of `MaybeScheduleProcessQueue`. -/
  checking : Nat := 0
  /-- Threads that are about to call `schedule`. -/
  scheduling : Nat := 0
  /-- The callbacks that threads are in. -/
  running : List C := []
  /-- Threads before the destructor of `RAIICallbacksRunning`. -/
  leaving : Nat := 0
  inserted : List C := []
  started : List C := []
  ended : List C := []

namespace SerialTaskRunner

variable {C : Type}

def maybeScheduleProcessQueue (s : SerialTaskRunner C) : SerialTaskRunner C :=
  if s.m_are_callbacks_running then s
  else if s.m_callbacks_pending = [] then s
  else { s with scheduling := s.scheduling + 1 }

/-- `ProcessQueue` until the call of the callback. -/
def processQueue (s : SerialTaskRunner C) : SerialTaskRunner C :=
  if s.m_are_callbacks_running then s
  else match s.m_callbacks_pending with
    | [] => s
    | callback :: rest => { s with
        m_are_callbacks_running := true
        m_callbacks_pending := rest
        running := callback :: s.running
        started := s.started ++ [callback] }

/-- What a thread that is at work does next. -/
inductive Duty
  | serviceQueue
  | schedule
  | maybeSchedule
  | leave
  | callback
  deriving DecidableEq, Repr

/-- The steps of all threads, with the duty that they fulfil. -/
inductive Step (s : SerialTaskRunner C) : Option Duty → SerialTaskRunner C → Prop
  | insert (func : C) : Step s none { s with
      m_callbacks_pending := s.m_callbacks_pending ++ [func]
      checking := s.checking + 1
      inserted := s.inserted ++ [func] }
  | flush : Step s none s.processQueue
  | serviceQueue {tasks : Nat} (h : s.tasks = tasks + 1) :
      Step s (some .serviceQueue) { s with tasks := tasks }.processQueue
  | maybeSchedule {checking : Nat} (h : s.checking = checking + 1) :
      Step s (some .maybeSchedule) { s with checking := checking }.maybeScheduleProcessQueue
  | schedule {scheduling : Nat} (h : s.scheduling = scheduling + 1) :
      Step s (some .schedule) { s with scheduling := scheduling, tasks := s.tasks + 1 }
  /-- A callback returns or throws. -/
  | callback {before after : List C} {callback : C} (h : s.running = before ++ callback :: after) :
      Step s (some .callback) { s with
        running := before ++ after
        leaving := s.leaving + 1
        ended := s.ended ++ [callback] }
  | leave {leaving : Nat} (h : s.leaving = leaving + 1) : Step s (some .leave) { s with
      m_are_callbacks_running := false
      leaving := leaving
      checking := s.checking + 1 }

/-- What the steps of all threads lead to. -/
inductive Reaches : SerialTaskRunner C → Prop
  | start : Reaches {}
  | step {s t : SerialTaskRunner C} {act : Option Duty} (hreaches : Reaches s)
      (hstep : Step s act t) : Reaches t

/-- The invariant. The flag counts the threads that set it, and a callback that waits is noticed. -/
structure Inv (s : SerialTaskRunner C) : Prop where
  order : s.started ++ s.m_callbacks_pending = s.inserted
  flag : s.running.length + s.leaving = s.m_are_callbacks_running.toNat
  serial : s.started = s.ended ++ s.running
  noticed : s.m_callbacks_pending ≠ [] → s.running = [] →
    0 < s.tasks + s.checking + s.scheduling + s.leaving

variable {s t : SerialTaskRunner C} {act : Option Duty}

/-- Nothing is missed while the flag is set: some thread will clear it. -/
theorem Inv.of_running (h : Inv s) (hset : s.m_are_callbacks_running = true)
    (tasks checking : Nat) : Inv { s with tasks := tasks, checking := checking } := by
  refine ⟨h.order, h.flag, h.serial, fun _ (hnone : s.running = []) => ?_⟩
  have hflag := h.flag
  rw [hset, hnone, length_nil, Bool.toNat_true] at hflag
  simp only
  omega

/-- No callback runs while the flag is clear. -/
theorem Inv.running_nil (h : Inv s) (hclear : s.m_are_callbacks_running = false) :
    s.running = [] := by
  have hflag := h.flag
  rw [hclear, Bool.toNat_false] at hflag
  exact length_eq_zero_iff.mp (Nat.eq_zero_of_add_eq_zero_right hflag)

theorem Inv.processQueue (h : Inv s) (tasks : Nat) :
    Inv { s with tasks := tasks }.processQueue := by
  unfold SerialTaskRunner.processQueue
  split
  · next hset => exact h.of_running hset tasks s.checking
  next hset =>
  split
  · next hempty => exact ⟨h.order, h.flag, h.serial, fun hsome => absurd hempty hsome⟩
  · next callback rest hpending =>
    have hclear := Bool.eq_false_iff.mpr hset
    have hflag := h.flag
    rw [hclear, Bool.toNat_false] at hflag
    refine ⟨?_, ?_, ?_, fun _ => nofun⟩
    · rw [← h.order, append_assoc]
      exact congrArg _ hpending.symm
    · show s.running.length + 1 + s.leaving = 1
      omega
    · rw [h.serial, h.running_nil hclear, append_nil]

theorem Inv.step (h : Inv s) (hstep : Step s act t) : Inv t := by
  have hflag := h.flag
  have hone := s.m_are_callbacks_running.toNat_le
  cases hstep with
  | serviceQueue htasks => exact h.processQueue _
  | flush => exact h.processQueue s.tasks
  | insert func =>
    exact ⟨by rw [← h.order, append_assoc], h.flag, h.serial, fun _ _ => by simp only; omega⟩
  | @maybeSchedule checking hchecking =>
    unfold maybeScheduleProcessQueue
    split
    · next hset => exact h.of_running hset s.tasks checking
    split
    · next hempty => exact ⟨h.order, h.flag, h.serial, fun hsome => absurd hempty hsome⟩
    · exact ⟨h.order, h.flag, h.serial, fun _ _ => by simp only; omega⟩
  | schedule hscheduling => exact ⟨h.order, h.flag, h.serial, fun _ _ => by simp only; omega⟩
  | @callback before after callback hrunning =>
    rw [hrunning, length_append, length_cons] at hflag
    obtain rfl := length_eq_zero_iff.mp (show before.length = 0 by omega)
    obtain rfl := length_eq_zero_iff.mp (show after.length = 0 by omega)
    refine ⟨h.order, ?_, ?_, fun _ _ => Nat.succ_pos _⟩
    · show 0 + (s.leaving + 1) = s.m_are_callbacks_running.toNat
      rw [length_nil] at hflag
      omega
    · rw [h.serial, hrunning]
      simp
  | @leave leaving hleaving =>
    refine ⟨h.order, ?_, h.serial, fun _ _ => by simp only; omega⟩
    show s.running.length + leaving = 0
    omega

theorem Reaches.inv (h : Reaches s) : Inv s := by
  induction h with
  | start => exact ⟨rfl, rfl, rfl, absurd rfl⟩
  | step _ hstep ih => exact ih.step hstep

/-! ## Fair runs -/

/-- Some thread has this duty. -/
def Ready (s : SerialTaskRunner C) : Duty → Prop
  | .serviceQueue => 0 < s.tasks
  | .schedule => 0 < s.scheduling
  | .maybeSchedule => 0 < s.checking
  | .leave => 0 < s.leaving
  | .callback => s.running ≠ []

/-- An infinite run, in which nothing may happen for a while. -/
structure Run (C : Type) where
  state : Nat → SerialTaskRunner C
  act : Nat → Option Duty
  start : state 0 = {}
  step : ∀ i, Step (state i) (act i) (state (i + 1)) ∨ act i = none ∧ state (i + 1) = state i

/-- No duty is put off forever: every callback ends, every thread goes on, and the scheduler
services its queue. -/
def Run.Fair (run : Run C) : Prop := WeaklyFair Ready run.state run.act

theorem Run.reaches (run : Run C) (i : Nat) : Reaches (run.state i) := by
  induction i with
  | zero => exact run.start ▸ .start
  | succ i ih =>
    rcases run.step i with hstep | ⟨-, hsame⟩
    · exact ih.step hstep
    · exact hsame ▸ ih

/-- The duty that brings the next callback closer. -/
def next (s : SerialTaskRunner C) : Duty :=
  if s.m_are_callbacks_running then if s.running = [] then .leave else .callback
  else if 0 < s.tasks then .serviceQueue
  else if 0 < s.scheduling then .schedule else .maybeSchedule

def Duty.rank : Duty → Nat
  | .serviceQueue => 1
  | .schedule => 2
  | .maybeSchedule => 3
  | .leave => 4
  | .callback => 5

theorem Inv.ready_next (h : Inv s) (hwaits : s.m_callbacks_pending ≠ []) : s.Ready s.next := by
  have hflag := h.flag
  unfold next
  split
  · next hset =>
    rw [hset, Bool.toNat_true] at hflag
    split
    · next hnone =>
      rw [hnone, length_nil] at hflag
      show 0 < s.leaving
      omega
    · next hsome => exact hsome
  next hclear =>
  rw [Bool.eq_false_iff.mpr hclear, Bool.toNat_false] at hflag
  have hnoticed := h.noticed hwaits (length_eq_zero_iff.mp (by omega))
  split
  · next htasks => exact htasks
  split
  · next hscheduling => exact hscheduling
  · show 0 < s.checking
    omega

/-- A callback is started, or the next duty gets a lower rank, or it stays. -/
def Advances (s : SerialTaskRunner C) (act : Option Duty) (t : SerialTaskRunner C) : Prop :=
  t.started.length = s.started.length + 1 ∨ t.started = s.started ∧
    (t.next.rank < s.next.rank ∨ t.next = s.next ∧ act ≠ some s.next)

/-- While the flag is set, it only matters where the thread is that will clear it. -/
theorem advances_of_running (hset : s.m_are_callbacks_running = true)
    (hflag : t.m_are_callbacks_running = true) (hrunning : t.running = s.running)
    (hstarted : t.started = s.started) (hact : act ≠ some .leave ∧ act ≠ some .callback) :
    Advances s act t := by
  refine .inr ⟨hstarted, .inr ?_⟩
  unfold next
  rw [if_pos hset, if_pos hflag, hrunning]
  refine ⟨rfl, ?_⟩
  split
  · exact hact.1
  · exact hact.2

theorem advances_processQueue (hwaits : s.m_callbacks_pending ≠ []) (tasks : Nat)
    (hact : act ≠ some .leave ∧ act ≠ some .callback) :
    Advances s act { s with tasks := tasks }.processQueue := by
  unfold processQueue
  split
  · next hset => exact advances_of_running hset hset rfl rfl hact
  split
  · next hempty => exact absurd hempty hwaits
  · exact .inl length_append

theorem advances_maybeSchedule (hwaits : s.m_callbacks_pending ≠ []) (checking : Nat) :
    Advances s (some .maybeSchedule) { s with checking := checking }.maybeScheduleProcessQueue := by
  unfold maybeScheduleProcessQueue
  split
  · next hset => exact advances_of_running hset hset rfl rfl ⟨nofun, nofun⟩
  next hclear =>
  refine .inr ⟨rfl, ?_⟩
  unfold next
  rw [if_neg hclear, if_neg hclear, if_pos (Nat.succ_pos s.scheduling)]
  split
  · exact .inr ⟨rfl, nofun⟩
  split
  · exact .inr ⟨rfl, nofun⟩
  · exact .inl (by decide)

theorem advances_schedule {scheduling : Nat} (h : s.scheduling = scheduling + 1) :
    Advances s (some .schedule) { s with scheduling := scheduling, tasks := s.tasks + 1 } := by
  cases hset : s.m_are_callbacks_running with
  | true => exact advances_of_running hset rfl rfl rfl ⟨nofun, nofun⟩
  | false =>
    refine .inr ⟨rfl, ?_⟩
    unfold next
    rw [hset, if_neg Bool.false_ne_true, if_neg Bool.false_ne_true, if_pos (Nat.succ_pos s.tasks),
      h, if_pos (Nat.succ_pos scheduling)]
    split
    · exact .inr ⟨rfl, nofun⟩
    · exact .inl (by decide)

theorem Inv.advances (h : Inv s) (hwaits : s.m_callbacks_pending ≠ []) (hstep : Step s act t) :
    Advances s act t := by
  have ht := (h.step hstep).flag
  have hflag := h.flag
  cases hstep with
  | insert func => exact .inr ⟨rfl, .inr ⟨rfl, nofun⟩⟩
  | flush => exact advances_processQueue hwaits s.tasks ⟨nofun, nofun⟩
  | serviceQueue htasks => exact advances_processQueue hwaits _ ⟨nofun, nofun⟩
  | maybeSchedule hchecking => exact advances_maybeSchedule hwaits _
  | schedule hscheduling => exact advances_schedule hscheduling
  | @callback before after callback hrunning =>
    refine .inr ⟨rfl, .inl ?_⟩
    have hset : s.m_are_callbacks_running = true := by
      by_contra hclear
      rw [Bool.eq_false_iff.mpr hclear, hrunning, length_append, length_cons] at hflag
      simp at hflag
    have hnone : before ++ after = [] := by
      apply length_eq_zero_iff.mp
      rw [hset] at ht
      simp only [Bool.toNat_true] at ht
      omega
    unfold next
    rw [if_pos hset, if_pos hset, if_pos hnone, hrunning, if_neg (by simp)]
    decide
  | @leave leaving hleaving =>
    refine .inr ⟨rfl, .inl ?_⟩
    have hset : s.m_are_callbacks_running = true := by
      by_contra hclear
      rw [Bool.eq_false_iff.mpr hclear, hleaving] at hflag
      simp at hflag
    have hnone : s.running = [] := by
      apply length_eq_zero_iff.mp
      have hone := s.m_are_callbacks_running.toNat_le
      omega
    unfold next
    rw [if_pos hset, if_pos hnone, if_neg Bool.false_ne_true]
    split
    · decide
    split <;> decide

/-- Inserted callbacks stay where they are. -/
theorem Step.inserted_prefix (h : Step s act t) : s.inserted <+: t.inserted := by
  have hprocess : ∀ s : SerialTaskRunner C, s.inserted <+: s.processQueue.inserted := by
    intro s
    unfold processQueue
    split
    · exact prefix_rfl
    split <;> exact prefix_rfl
  cases h with
  | insert func => exact prefix_append _ _
  | flush => exact hprocess s
  | @serviceQueue tasks htasks => exact hprocess { s with tasks := tasks }
  | maybeSchedule hchecking =>
    unfold maybeScheduleProcessQueue
    split
    · exact prefix_rfl
    split <;> exact prefix_rfl
  | schedule hscheduling => exact prefix_rfl
  | callback hrunning => exact prefix_rfl
  | leave hleaving => exact prefix_rfl

theorem Run.inserted_prefix (run : Run C) {i j : Nat} (h : i ≤ j) :
    (run.state i).inserted <+: (run.state j).inserted := by
  induction h with
  | refl => exact prefix_rfl
  | @step j _ ih =>
    rcases run.step j with hstep | ⟨-, hsame⟩
    · exact ih.trans hstep.inserted_prefix
    · rwa [hsame]

/-- In a fair run every callback that was inserted is started. -/
theorem Run.Fair.starts {run : Run C} (hfair : run.Fair) {i n : Nat}
    (hn : n < (run.state i).inserted.length) : ∃ j, i ≤ j ∧ n < (run.state j).started.length := by
  by_cases hthere : n < (run.state i).started.length
  · exact ⟨i, Nat.le_refl i, hthere⟩
  let inside (s : SerialTaskRunner C) : Prop :=
    Inv s ∧ s.started.length ≤ n ∧ n < s.inserted.length
  have hwaits : ∀ s : SerialTaskRunner C, inside s → s.m_callbacks_pending ≠ [] := by
    rintro s ⟨hinv, hstarted, hinserted⟩ hempty
    rw [← hinv.order, hempty, append_nil] at hinserted
    omega
  have hprogress : Progresses (fun s duty => duty = s.next) inside
      (fun j => n < (run.state (j + 1)).started.length)
      (fun s => 6 * (n - s.started.length) + s.next.rank) run.state run.act := by
    intro j hinside hgoal
    obtain ⟨hinv, hstarted, hinserted⟩ := hinside
    rcases run.step j with hstep | ⟨hnone, hsame⟩
    · refine ⟨⟨hinv.step hstep, Nat.le_of_not_lt hgoal,
        Nat.lt_of_lt_of_le hinserted hstep.inserted_prefix.length_le⟩, ?_⟩
      have hrank : ∀ duty : Duty, duty.rank ≤ 5 := fun duty => by cases duty <;> decide
      have hbound := hrank (run.state (j + 1)).next
      rcases hinv.advances (hwaits _ ⟨hinv, hstarted, hinserted⟩) hstep with
        hmore | ⟨hsame, hless | ⟨hnext, hact⟩⟩
      · left
        simp only
        omega
      · left
        simp only [hsame]
        omega
      · right
        dsimp only
        rw [hsame, hnext]
        exact ⟨rfl, fun duty hduty => ⟨hduty ▸ hact, hduty⟩⟩
    · rw [hsame, hnone]
      exact ⟨⟨hinv, hstarted, hinserted⟩, .inr ⟨rfl, fun duty hduty => ⟨nofun, hduty⟩⟩⟩
  have hinside : inside (run.state i) := ⟨(run.reaches i).inv, Nat.le_of_not_lt hthere, hn⟩
  obtain ⟨j, hj, hgoal⟩ := eventually_of_fair hfair hprogress (fun j _ => ⟨_, rfl⟩)
    (fun j duty hin hduty => hduty ▸ hin.1.ready_next (hwaits _ hin)) hinside
  exact ⟨j + 1, Nat.le_succ_of_le hj, hgoal⟩

/-- In every run callbacks start in the order in which they were inserted, each after the one before
it has ended. While some wait and none runs, a task is scheduled or a thread is about to schedule
one, and `ProcessQueue` starts the first of them; so all callbacks have ended when no task and no
thread is left, and in a fair run each one is started. -/
theorem callbacks_run_in_order (C : Type) :
    (∀ s : SerialTaskRunner C, Reaches s →
      s.started ++ s.m_callbacks_pending = s.inserted ∧ s.started = s.ended ++ s.running ∧
      s.running.length + s.leaving = s.m_are_callbacks_running.toNat ∧
      (s.m_callbacks_pending ≠ [] → s.running = [] →
        0 < s.tasks + s.checking + s.scheduling + s.leaving) ∧
      (∀ callback rest, s.m_callbacks_pending = callback :: rest →
        s.m_are_callbacks_running = false →
        s.processQueue.started = s.started ++ [callback] ∧ s.processQueue.running = [callback] ∧
          s.processQueue.m_callbacks_pending = rest) ∧
      (s.tasks + s.checking + s.scheduling + s.running.length + s.leaving = 0 →
        s.ended = s.inserted)) ∧
    ∀ run : Run C, run.Fair → ∀ (i n : Nat) (callback : C),
      (run.state i).inserted[n]? = some callback →
        ∃ j, i ≤ j ∧ (run.state j).started[n]? = some callback := by
  refine ⟨fun s hreaches => ?_, fun run hfair i n callback hinserted => ?_⟩
  · have h := hreaches.inv
    refine ⟨h.order, h.serial, h.flag, h.noticed, fun callback rest hpending hclear => ?_,
      fun hquiet => ?_⟩
    · unfold processQueue
      rw [hclear, if_neg Bool.false_ne_true, hpending, h.running_nil hclear]
      exact ⟨rfl, rfl, rfl⟩
    have hnone := length_eq_zero_iff.mp (show s.running.length = 0 by omega)
    have hempty : s.m_callbacks_pending = [] := by
      by_contra hsome
      have hnoticed := h.noticed hsome hnone
      omega
    have horder := h.order
    rwa [h.serial, hnone, hempty, append_nil, append_nil] at horder
  · obtain ⟨hn, -⟩ := List.getElem?_eq_some_iff.mp hinserted
    obtain ⟨j, hj, hstarted⟩ := hfair.starts hn
    obtain ⟨later, hlater⟩ := run.inserted_prefix hj
    refine ⟨j, hj, ?_⟩
    rw [← getElem?_append_left hstarted, (run.reaches j).inv.order, ← hlater,
      getElem?_append_left hn, hinserted]

/-! ## Two callbacks -/

instance (s : SerialTaskRunner C) : (duty : Duty) → Decidable (s.Ready duty)
  | .serviceQueue => inferInstanceAs (Decidable (0 < s.tasks))
  | .schedule => inferInstanceAs (Decidable (0 < s.scheduling))
  | .maybeSchedule => inferInstanceAs (Decidable (0 < s.checking))
  | .leave => inferInstanceAs (Decidable (0 < s.leaving))
  | .callback => inferInstanceAs (Decidable (¬ s.running = []))

/-- A thread fulfils its duty. -/
def fulfil (s : SerialTaskRunner C) : Duty → SerialTaskRunner C
  | .serviceQueue => { s with tasks := s.tasks - 1 }.processQueue
  | .schedule => { s with scheduling := s.scheduling - 1, tasks := s.tasks + 1 }
  | .maybeSchedule => { s with checking := s.checking - 1 }.maybeScheduleProcessQueue
  | .leave => { s with
      m_are_callbacks_running := false
      leaving := s.leaving - 1
      checking := s.checking + 1 }
  | .callback => { s with
      running := s.running.tail
      leaving := s.leaving + 1
      ended := s.ended ++ s.running.take 1 }

theorem Ready.step {duty : Duty} (h : s.Ready duty) : Step s (some duty) (s.fulfil duty) := by
  cases duty with
  | serviceQueue => exact .serviceQueue (Nat.sub_add_cancel h).symm
  | schedule => exact .schedule (Nat.sub_add_cancel h).symm
  | maybeSchedule => exact .maybeSchedule (Nat.sub_add_cancel h).symm
  | leave => exact .leave (Nat.sub_add_cancel h).symm
  | callback =>
    obtain ⟨first, rest, hrunning⟩ := exists_cons_of_ne_nil h
    unfold fulfil
    rw [hrunning]
    exact @Step.callback _ s [] rest first hrunning

/-- Two callbacks are inserted, and then the threads do what comes next. -/
def serve : Nat → SerialTaskRunner Nat
  | 0 => {}
  | 1 => { m_callbacks_pending := [1], checking := 1, inserted := [1] }
  | 2 => { m_callbacks_pending := [1, 2], checking := 2, inserted := [1, 2] }
  | i + 3 =>
    if (serve (i + 2)).Ready (serve (i + 2)).next then (serve (i + 2)).fulfil (serve (i + 2)).next
    else serve (i + 2)

def serveRun : Run Nat where
  state := serve
  act := fun i => if 2 ≤ i ∧ (serve i).Ready (serve i).next then some (serve i).next else none
  start := rfl
  step := fun i => match i with
    | 0 => .inl (.insert 1)
    | 1 => .inl (.insert 2)
    | i + 2 => by
      by_cases hready : (serve (i + 2)).Ready (serve (i + 2)).next
      · left
        rw [serve, if_pos ⟨Nat.le_add_left 2 i, hready⟩, if_pos hready]
        exact hready.step
      · right
        rw [serve, if_neg (fun h => hready h.2), if_neg hready]
        exact ⟨rfl, rfl⟩

/-- In the end no thread has anything to do. -/
theorem serve_quiet (k : Nat) : serve (k + 14) = serve 14 := by
  induction k with
  | zero => rfl
  | succ k ih =>
    rw [Nat.add_right_comm]
    show (if (serve (k + 14)).Ready (serve (k + 14)).next then _ else serve (k + 14)) = _
    rw [ih, if_neg (by decide)]

/-- Both callbacks are started and end, one after the other. -/
theorem callbacks_run_in_order_two :
    (∃ j, 2 ≤ j ∧ (serve j).started[1]? = some 2) ∧ (serve 14).ended = (serve 14).inserted ∧
      (serve 14).inserted = [1, 2] := by
  have hfair : serveRun.Fair := by
    intro duty i hready
    have hquiet : (serve (i + 14)).Ready duty := hready (i + 14) (Nat.le_add_right i 14)
    rw [serve_quiet] at hquiet
    cases duty <;> exact absurd hquiet (by decide)
  have horder := callbacks_run_in_order Nat
  exact ⟨horder.2 serveRun hfair 2 1 2 rfl,
    (horder.1 _ (serveRun.reaches 14)).2.2.2.2.2 (by decide), rfl⟩

end SerialTaskRunner

end BtcSharp
