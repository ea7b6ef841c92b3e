/-
# The queue of script checks

`CCheckQueue` of `checkqueue.h`: any number of worker threads and the master, who adds checks
and then helps until all of them are done. A section that holds `m_mutex` is one step, and so
is each check; a section ends when it releases the mutex, also to wait. A thread that waits may
wake up at any time, but only one that was notified has to. The count of checks that are not
done wraps at 32 bits. The numbers of threads are unbounded, and `m_request_stop`, which only
the destructor sets, is left out.
-/

import Mathlib.Data.Fintype.Option

namespace BtcSharp

/-- What `m_mutex` protects. -/
structure CCheckQueue (T R : Type*) where
  queue : List T := []
  nIdle : Int := 0
  nTotal : Int := 0
  m_result : Option R := none
  nTodo : UInt32 := 0

namespace CCheckQueue

/-- What a thread does next. -/
inductive Phase (T R : Type*)
  /-- The master is not in `Loop`. -/
  | outside
  /-- The master has added checks and is about to notify workers. -/
  | notifying (size : Nat)
  /-- A thread has called `Loop`. -/
  | entering
  /-- A thread has a batch, and these checks of it are left to do. -/
  | working (vChecks : List T) (nNow : Nat) (local_result : Option R)
  /-- A thread waits for its condition variable. -/
  | waiting (notified : Bool) (local_result : Option R)
  /-- A thread looks for work. It holds the mutex, so no step ends in this phase. -/
  | serving (local_result : Option R)

/-- A worker, or the master. -/
abbrev Thread (n : Nat) := Option (Fin n)

/-- All threads, and what happened to the checks of this round. -/
structure System (n : Nat) (T R : Type*) where
  shared : CCheckQueue T R := {}
  phase : Thread n → Phase T R := fun t => if t.isSome then .entering else .outside
  added : List T := []
  executed : List T := []
  discarded : List T := []

variable {T R : Type*} {n : Nat}

/-- A notification arrives. -/
def Phase.woken : Phase T R → Phase T R
  | .waiting _ local_result => .waiting true local_result
  | phase => phase

/-- `m_master_cv.notify_one`. -/
def notifyMaster (phase : Thread n → Phase T R) : Thread n → Phase T R :=
  Function.update phase none (phase none).woken

/-- `m_worker_cv.notify_all`. -/
def notifyAll (phase : Thread n → Phase T R) : Thread n → Phase T R
  | none => phase none
  | some worker => (phase (some worker)).woken

/-- What `Add` notifies: one worker that waits, if there is one, or all. -/
def Notified (size : Nat) (before after : Thread n → Phase T R) : Prop :=
  if size = 1 then
    (∃ worker local_result, before (some worker) = .waiting false local_result ∧
      after = Function.update before (some worker) (.waiting true local_result)) ∨
    ((∀ worker local_result, before (some worker) ≠ .waiting false local_result) ∧ after = before)
  else after = notifyAll before

/-- The clean-up of a batch that is done: the result of the thread and that of the queue. -/
def keepResult (local_result m_result : Option R) : Option R × Option R :=
  if local_result.isSome && m_result.isNone then (m_result, local_result)
  else (local_result, m_result)

/-- The part of the section in which a thread gives back what it has. -/
def release (s : System n T R) (t : Thread n) : Option (System n T R) :=
  match s.phase t with
  | .entering => some { s with
      shared := { s.shared with nTotal := s.shared.nTotal + 1 }
      phase := Function.update s.phase t (.serving none) }
  | .working [] nNow local_result =>
    let kept := keepResult local_result s.shared.m_result
    let nTodo := s.shared.nTodo - UInt32.ofNat nNow
    let phase := if nTodo = 0 ∧ t.isSome then notifyMaster s.phase else s.phase
    some { s with
      shared := { s.shared with m_result := kept.2, nTodo := nTodo }
      phase := Function.update phase t (.serving kept.1) }
  | .waiting _ local_result => some { s with
      shared := { s.shared with nIdle := s.shared.nIdle - 1 }
      phase := Function.update s.phase t (.serving local_result) }
  | _ => none

/-- How many work units to process now. The size of the queue is converted to 32 bits. -/
def batchSize (nBatchSize : Nat) (q : CCheckQueue T R) : Nat :=
  max 1 (min nBatchSize (q.queue.length % 2 ^ 32 / (q.nTotal + q.nIdle + 1).toNat))

/-- The master returns the result of the round. -/
def finish (s : System n T R) : System n T R where
  shared := { s.shared with nTotal := s.shared.nTotal - 1, m_result := none }
  phase := Function.update s.phase none .outside

/-- A thread waits for its condition variable. -/
def wait (s : System n T R) (t : Thread n) (local_result : Option R) : System n T R :=
  { s with
    shared := { s.shared with nIdle := s.shared.nIdle + 1 }
    phase := Function.update s.phase t (.waiting false local_result) }

/-- A thread takes the last checks of the queue, and does them unless there is a result. -/
def take (nBatchSize : Nat) (s : System n T R) (t : Thread n) (local_result : Option R) :
    System n T R :=
  let nNow := batchSize nBatchSize s.shared
  let start_it := s.shared.queue.length - nNow
  let batch := s.shared.queue.drop start_it
  let do_work := s.shared.m_result.isNone
  { s with
    shared := { s.shared with queue := s.shared.queue.take start_it }
    phase := Function.update s.phase t (.working (if do_work then batch else []) nNow local_result)
    discarded := if do_work then s.discarded else s.discarded ++ batch }

/-- What happens, and by whom. -/
inductive Event (n : Nat) (T R : Type*)
  | add (vChecks : List T)
  | notify
  | complete
  | check (t : Thread n)
  | enter (t : Thread n)
  | ret (result : Option R)

/-- The thread that acts. -/
def Event.actor : Event n T R → Thread n
  | .check t | .enter t => t
  | _ => none

/-- The steps. The function says what a check returns. -/
inductive Step (run : T → Option R) (nBatchSize : Nat) :
    System n T R → Event n T R → System n T R → Prop
  | add {s : System n T R} (vChecks : List T) (hmaster : s.phase none = .outside)
      (hsome : vChecks ≠ []) : Step run nBatchSize s (.add vChecks)
        { s with
          shared := { s.shared with
            queue := s.shared.queue ++ vChecks
            nTodo := s.shared.nTodo + UInt32.ofNat vChecks.length }
          phase := Function.update s.phase none (.notifying vChecks.length)
          added := s.added ++ vChecks }
  | addNothing {s : System n T R} (hmaster : s.phase none = .outside) :
      Step run nBatchSize s (.add []) s
  | notify {s : System n T R} {size : Nat} {phase : Thread n → Phase T R}
      (hmaster : s.phase none = .notifying size) (hnotified : Notified size s.phase phase) :
      Step run nBatchSize s .notify { s with phase := Function.update phase none .outside }
  | complete {s : System n T R} (hmaster : s.phase none = .outside) :
      Step run nBatchSize s .complete { s with phase := Function.update s.phase none .entering }
  | check {s : System n T R} {t : Thread n} {check : T} {rest : List T} {nNow : Nat}
      {local_result : Option R} (hworking : s.phase t = .working (check :: rest) nNow local_result)
        :
      Step run nBatchSize s (.check t)
        { s with
          phase := Function.update s.phase t
            (.working (if (run check).isSome then [] else rest) nNow (run check))
          executed := s.executed ++ [check]
          discarded := if (run check).isSome then s.discarded ++ rest else s.discarded }
  | take {s released : System n T R} {t : Thread n} {local_result : Option R}
      (hrelease : release s t = some released) (hserving : released.phase t = .serving local_result)
      (hqueue : released.shared.queue ≠ []) :
      Step run nBatchSize s (.enter t) (take nBatchSize released t local_result)
  | wait {s released : System n T R} {t : Thread n} {local_result : Option R}
      (hrelease : release s t = some released) (hserving : released.phase t = .serving local_result)
      (hqueue : released.shared.queue = []) (hstay : ¬ (t = none ∧ released.shared.nTodo = 0)) :
      Step run nBatchSize s (.enter t) (wait released t local_result)
  | ret {s released : System n T R} (hrelease : release s none = some released)
      (hqueue : released.shared.queue = []) (hdone : released.shared.nTodo = 0) :
      Step run nBatchSize s (.ret released.shared.m_result) (finish released)

/-- The checks that were added in this round can be counted. -/
def Countable (s : System n T R) : Prop := s.added.length < 2 ^ 32

/-- What is reached when the threads have been started, by rounds whose checks can be counted. -/
inductive Reaches (run : T → Option R) (nBatchSize : Nat) : System n T R → Prop
  | start : Reaches run nBatchSize {}
  | step {s s' : System n T R} {event : Event n T R} :
      Reaches run nBatchSize s → Step run nBatchSize s event s' → Countable s' →
      Reaches run nBatchSize s'

end CCheckQueue

end BtcSharp
