import OperationSystems.Sync.Worker

/-!
# The futex mutex

`mutex_lock` and `mutex_unlock`. The word is 0 while the mutex is free, 1 while it
is taken and 2 while it is taken and somebody has announced to wait. A thread that
finds 1 exchanges it for 2 and calls `futex_wait`; it goes on through the kernel,
where the comparison with 2 and falling asleep are one step.
-/

namespace OperationSystems.Sync

/-- Where a thread is in `mutex_lock`. `raise` is the compare-exchange of 1 by 2,
`wait` the system call before it compares. -/
inductive MutexLockPoint
  | trylock
  | load
  | raise
  | wait
  | asleep
  | retry
  deriving DecidableEq

/-- Where a thread is in `mutex_unlock`. -/
inductive MutexUnlockPoint
  | exchange
  | wake
  deriving DecidableEq

/-- `mutex_trylock`. -/
def mutexTrylock (state : ℤ) : Bool × ℤ := compareExchange state 0 1

/-- `mutex_lock`. -/
def mutexLock (state : ℤ) : MutexLockPoint → ℤ × Option MutexLockPoint
  | .trylock => ((mutexTrylock state).2, if (mutexTrylock state).1 then none else some .load)
  | .load => (state, some (if state = 1 then .raise else .retry))
  | .raise =>
      let (exchanged, after) := compareExchange state 1 2
      (after, some (if exchanged then .wait else .retry))
  | .wait => (state, some (if state = 2 then .asleep else .retry))
  -- a sleeper may also return without having been woken
  | .asleep => (state, some .retry)
  | .retry => ((mutexTrylock state).2, if (mutexTrylock state).1 then none else some .load)

/-- `mutex_unlock`. -/
def mutexUnlock (state : ℤ) : MutexUnlockPoint → ℤ × Option MutexUnlockPoint
  | .exchange => (0, if state = 2 then some .wake else none)
  | .wake => (state, none)

def mutexCode : LockCode MutexLockPoint MutexUnlockPoint where
  enter := .trylock
  lock := mutexLock
  leave := .exchange
  unlock := mutexUnlock
  sleeps := fun point => point = .asleep
  resume := .retry
  wakes := fun point => point = .wake

end OperationSystems.Sync
