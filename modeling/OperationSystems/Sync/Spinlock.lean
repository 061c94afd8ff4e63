import OperationSystems.Sync.Worker

/-!
# The spinlock

`spinlock_lock` and `spinlock_unlock`. The lock call tries `spins` times, pausing
between the attempts, doubles `spins` up to a limit, and yields the processor
after every eighth such round.
-/

namespace OperationSystems.Sync

/-- Where a thread is in `spinlock_lock`, with its local variables. -/
inductive SpinlockLockPoint
  | trylock
  | spin (i spins yields : ℕ)
  deriving DecidableEq

/-- The one step of `spinlock_unlock`. -/
inductive SpinlockUnlockPoint
  | store
  deriving DecidableEq

/-- `max_spins`. -/
def maxSpins : ℕ := 2 ^ 12

/-- `spinlock_trylock`. -/
def spinlockTrylock (state : ℤ) : Bool × ℤ := compareExchange state 0 1

/-- `spinlock_lock`. `cpu_relax` and `sched_yield` change nothing here. -/
def spinlockLock (state : ℤ) : SpinlockLockPoint → ℤ × Option SpinlockLockPoint
  | .trylock =>
      ((spinlockTrylock state).2, if (spinlockTrylock state).1 then none else some (.spin 0 16 0))
  | .spin i spins yields =>
      if i < spins then
        ((spinlockTrylock state).2,
          if (spinlockTrylock state).1 then none else some (.spin (i + 1) spins yields))
      else
        (state, some (.spin 0 (if spins < maxSpins then 2 * spins else spins) (yields + 1)))

/-- `spinlock_unlock`. -/
def spinlockUnlock (_ : ℤ) : SpinlockUnlockPoint → ℤ × Option SpinlockUnlockPoint
  | .store => (0, none)

def spinlockCode : LockCode SpinlockLockPoint SpinlockUnlockPoint where
  enter := .trylock
  lock := spinlockLock
  leave := .store
  unlock := spinlockUnlock
  sleeps := fun _ => false
  resume := .trylock
  wakes := fun _ => false

end OperationSystems.Sync
