import OperationSystems.Foundation.LockedWord
import OperationSystems.Foundation.Transition

/-!
# Threads that count under a lock of their own

`run_test` with `worker_my_mutex` or `worker_my_spin`: threads that each repeat
`lock; counter++; unlock`. The two workers differ in the lock they call, so the
lock is a parameter: the atomic steps of its two calls on the lock word. Every
atomic operation, system call and access to the counter is one step, and the
steps of the threads interleave in any order.
-/

namespace OperationSystems.Sync

open LockedWord

/-- `atomic_compare_exchange_strong_explicit`: whether it exchanged, and the word
behind it. -/
def compareExchange (word expected desired : ℤ) : Bool × ℤ :=
  if word = expected then (true, desired) else (false, word)

/-- The code of a lock: the points of its lock call and of its unlock call, and what
the atomic step at a point does to the word, with the point behind it or `none` when
the call returns. A thread at a point that `sleeps` may be woken by another one at a
point that `wakes`, and then goes on at `resume`. -/
structure LockCode (LockPoint UnlockPoint : Type) where
  enter : LockPoint
  lock : ℤ → LockPoint → ℤ × Option LockPoint
  leave : UnlockPoint
  unlock : ℤ → UnlockPoint → ℤ × Option UnlockPoint
  sleeps : LockPoint → Bool
  resume : LockPoint
  wakes : UnlockPoint → Bool

/-- Where a thread is in the worker's loop. -/
inductive Point (LockPoint UnlockPoint : Type)
  | head
  | locking (point : LockPoint)
  | loadCounter
  | storeCounter (seen : ℤ)
  | unlocking (point : UnlockPoint)
  | finished
  deriving DecidableEq

/-- A worker: its loop variable and where it is. -/
structure Thread (LockPoint UnlockPoint : Type) where
  round : ℕ
  point : Point LockPoint UnlockPoint
  deriving DecidableEq

/-- The lock word, `counter`, and the threads. -/
structure World (ι LockPoint UnlockPoint : Type) where
  state : ℤ
  counter : ℤ
  thread : ι → Thread LockPoint UnlockPoint

variable {ι LockPoint UnlockPoint : Type} (code : LockCode LockPoint UnlockPoint)

/-- What a step of a thread does to the thread and to the shared variables. -/
structure Effect (LockPoint UnlockPoint : Type) where
  state : ℤ
  counter : ℤ
  thread : Thread LockPoint UnlockPoint

/-- The worker behind a step of its lock call. -/
def Thread.afterLock (thread : Thread LockPoint UnlockPoint) :
    Option LockPoint → Thread LockPoint UnlockPoint
  | some next => { thread with point := .locking next }
  | none => { thread with point := .loadCounter }

/-- The worker behind a step of its unlock call. -/
def Thread.afterUnlock (thread : Thread LockPoint UnlockPoint) :
    Option UnlockPoint → Thread LockPoint UnlockPoint
  | some next => { thread with point := .unlocking next }
  | none => { round := thread.round + 1, point := .head }

/-- One step of a worker that runs `rounds` times. -/
def advance (rounds : ℕ) (state counter : ℤ) (thread : Thread LockPoint UnlockPoint) :
    Option (Effect LockPoint UnlockPoint) :=
  match thread.point with
  | .head => some
      { state, counter
        thread := { thread with
          point := if thread.round < rounds then .locking code.enter else .finished } }
  | .locking point => some
      { state := (code.lock state point).1
        counter
        thread := thread.afterLock (code.lock state point).2 }
  | .loadCounter =>
      some { state, counter, thread := { thread with point := .storeCounter counter } }
  | .storeCounter seen => some
      { state
        counter := seen + 1
        thread := { thread with point := .unlocking code.leave } }
  | .unlocking point => some
      { state := (code.unlock state point).1
        counter
        thread := thread.afterUnlock (code.unlock state point).2 }
  | .finished => none

/-- The thread sleeps in its lock call. -/
def asleep (thread : Thread LockPoint UnlockPoint) : Bool :=
  match thread.point with
  | .locking point => code.sleeps point
  | _ => false

/-- A thread that is woken returns from its sleep. -/
def Thread.resumed (thread : Thread LockPoint UnlockPoint) : Thread LockPoint UnlockPoint :=
  { thread with point := .locking code.resume }

/-- The next step of the thread wakes a sleeper. -/
def waking (thread : Thread LockPoint UnlockPoint) : Bool :=
  match thread.point with
  | .unlocking point => code.wakes point
  | _ => false

namespace World

/-- `run_test` behind the creation of the threads: the word and the counter are 0. -/
def start (ι LockPoint UnlockPoint : Type) : World ι LockPoint UnlockPoint :=
  { state := 0, counter := 0, thread := fun _ => ⟨0, .head⟩ }

variable [DecidableEq ι] [Fintype ι]

/-- The threads behind a step that wakes at most one of the others: one sleeper,
if there is one. -/
def woken (w : World ι LockPoint UnlockPoint) (i : ι) (sleeper : Option ι) :
    Option (ι → Thread LockPoint UnlockPoint) :=
  if waking code (w.thread i) then
    match sleeper with
    | some j =>
        if asleep code (w.thread j) then
          some (Function.update w.thread j ((w.thread j).resumed code))
        else none
    | none => if ∃ j, asleep code (w.thread j) = true then none else some w.thread
  else some w.thread

/-- One step of thread `label.1`; a waking step wakes thread `label.2`. -/
def step (rounds : ι → ℕ) (w : World ι LockPoint UnlockPoint) (label : ι × Option ι) :
    Option (World ι LockPoint UnlockPoint) :=
  (advance code (rounds label.1) w.state w.counter (w.thread label.1)).bind fun effect =>
    (w.woken code label.1 label.2).map fun threads =>
      { state := effect.state
        counter := effect.counter
        thread := Function.update threads label.1 effect.thread }

end World

end OperationSystems.Sync
