import Mathlib.Data.Fintype.Basic
import Mathlib.Logic.Function.Basic

/-!
# The thread pool

`threadPoolCreate`, `threadPoolSubmit`, `threadPoolStop` and `workerLoop` as step
functions: the thread that creates and stops the pool, the threads `κ` that submit
tasks, and the workers. A step takes or gives up `pool->lock`, runs to the next lock,
unlock, wait or call, or is an access without the lock. A task is `fn` and `arg` as
one value of `α`. The steps of all threads interleave in any order.
-/

namespace OperationSystems.ThreadPool

/-- The address of a `threadTask_t`. -/
abbrev Ptr : Type := ℕ

/-- `threadTask_t`. -/
structure Task (α : Type*) where
  call : α
  next : Option Ptr

/-- Where a worker is in `workerLoop`. Between `test` and `wait` it has found that it
must wait and not yet called `pthread_cond_wait`; `relock` is inside that call, behind
the wake-up. -/
inductive WorkerPc
  | absent
  | lock
  | test
  | wait
  | asleep
  | relock
  | check
  | take
  | start (p : Ptr)
  | running (p : Ptr)
  | free (p : Ptr)
  | exited
  deriving DecidableEq

/-- Where a thread is that submits tasks: outside `threadPoolSubmit`, with whether the
last call returned 0, or inside with the task it has allocated. -/
inductive CallerPc
  | outside (accepted : Bool)
  | lock (p : Ptr)
  | submit (p : Ptr)
  | free (p : Ptr)
  deriving DecidableEq

/-- The thread is not inside `threadPoolSubmit`. -/
def CallerPc.isOutside : CallerPc → Bool
  | .outside _ => true
  | _ => false

/-- Where the thread is that creates the pool and stops it. From `storeStop` to
`joinFailed` it is on the error path of `threadPoolCreate` with the index at which
`pthread_create` failed; from `lockStop` on it is in `threadPoolStop`. -/
inductive OwnerPc
  | begin
  | create (i : ℕ)
  | storeStop (i : ℕ)
  | broadcast (i : ℕ)
  | joinFailed (i j : ℕ)
  | failed
  | serving
  | lockStop
  | setStop
  | join (j : ℕ)
  | drain (cur : Option Ptr)
  | stopped
  deriving DecidableEq

/-- The threads. -/
inductive Agent (κ : Type*) (n : ℕ)
  | worker (i : Fin n)
  | owner
  | caller (k : κ)
  deriving DecidableEq

/-- What happened to the tasks so far, oldest first: those whose submit returned 0,
those that were refused because the pool stops, those taken from the queue, those
whose function was called and those whose function has returned. -/
structure History (α : Type*) where
  accepted : List (Ptr × α) := []
  refused : List (Ptr × α) := []
  taken : List (Ptr × α) := []
  started : List (Ptr × α) := []
  returned : List (Ptr × α) := []

/-- `threadPool_t` with `num_threads` workers, the tasks in memory and the threads. -/
structure Pool (κ α : Type*) (n : ℕ) where
  heap : Ptr → Option (Task α)
  fresh : Ptr
  head : Option Ptr
  tail : Option Ptr
  stop : Bool
  lock : Option (Agent κ n)
  worker : Fin n → WorkerPc
  owner : OwnerPc
  caller : κ → CallerPc
  history : History α

/-- Who takes the step, and what the calls it may make answer: whether `pthread_create`
(or what `threadPoolCreate` calls before it) succeeds; the task to submit, if `fn` is not
NULL, whether `malloc` succeeds, and whom `pthread_cond_signal` wakes. -/
inductive Label (κ α : Type*) (n : ℕ)
  | worker (i : Fin n)
  | owner (succeeds : Bool)
  | caller (k : κ) (fn : Option α) (memory : Bool) (woken : Fin n → Bool)

/-- A worker that is woken goes for the lock again. -/
def wake (woken : Bool) (pc : WorkerPc) : WorkerPc :=
  if woken = true ∧ pc = .asleep then .relock else pc

namespace Pool

variable {κ α : Type*} {n : ℕ}

/-- Before `threadPoolCreate`. -/
def start (κ α : Type*) (n : ℕ) : Pool κ α n where
  heap := fun _ => none
  fresh := 0
  head := none
  tail := none
  stop := false
  lock := none
  worker := fun _ => .absent
  owner := .begin
  caller := fun _ => .outside false
  history := {}

/-- A worker moves on. -/
def goto (s : Pool κ α n) (i : Fin n) (pc : WorkerPc) : Pool κ α n :=
  { s with worker := Function.update s.worker i pc }

/-- `workerLoop`. A worker that sleeps may also wake up by itself. -/
def stepWorker (s : Pool κ α n) (i : Fin n) : Option (Pool κ α n) :=
  match s.worker i with
  | .absent => none
  | .lock =>
      if s.lock = none then some { s.goto i .test with lock := some (.worker i) } else none
  | .test => some (s.goto i (if s.stop = false ∧ s.head = none then .wait else .check))
  | .wait => some { s.goto i .asleep with lock := none }
  | .asleep => some (s.goto i .relock)
  | .relock =>
      if s.lock = none then some { s.goto i .test with lock := some (.worker i) } else none
  | .check =>
      if s.stop = true ∧ s.head = none then some { s.goto i .exited with lock := none }
      else some (s.goto i .take)
  | .take =>
      match s.head with
      | none => none
      | some p => (s.heap p).map fun task =>
          { s.goto i (.start p) with
            head := task.next
            tail := if task.next = none then none else s.tail
            lock := none
            history := { s.history with taken := s.history.taken ++ [(p, task.call)] } }
  | .start p => (s.heap p).map fun task =>
      { s.goto i (.running p) with
        history := { s.history with started := s.history.started ++ [(p, task.call)] } }
  | .running p => (s.heap p).map fun task =>
      { s.goto i (.free p) with
        history := { s.history with returned := s.history.returned ++ [(p, task.call)] } }
  | .free p => some { s.goto i .lock with heap := Function.update s.heap p none }
  | .exited => none

/-- The pool can be used: `threadPoolCreate` has returned it and `threadPoolStop` has
not yet joined all workers. -/
def Usable : OwnerPc → Prop
  | .serving => True
  | .lockStop => True
  | .setStop => True
  | .join _ => True
  | _ => False

instance : DecidablePred Usable := fun pc => by
  cases pc <;> unfold Usable <;> infer_instance

/-- A submitting thread moves on. -/
def callerGoto [DecidableEq κ] (s : Pool κ α n) (k : κ) (pc : CallerPc) : Pool κ α n :=
  { s with caller := Function.update s.caller k pc }

/-- Lines 80 to 85 of `threadPoolSubmit`. -/
def link (s : Pool κ α n) (p : Ptr) : Option (Pool κ α n) :=
  match s.tail with
  | some t => (s.heap t).map fun last =>
      { s with
        heap := Function.update s.heap t (some { last with next := some p })
        tail := some p }
  | none => some { s with head := some p, tail := some p }

/-- `pthread_cond_signal` wakes at least one of those that sleep, if there is one. -/
def Signalled (s : Pool κ α n) (woken : Fin n → Bool) : Prop :=
  (∃ i, s.worker i = .asleep) → ∃ i, s.worker i = .asleep ∧ woken i = true

instance (s : Pool κ α n) (woken : Fin n → Bool) : Decidable (s.Signalled woken) :=
  inferInstanceAs (Decidable (_ → _))

/-- `threadPoolSubmit`. -/
def stepCaller [DecidableEq κ] (s : Pool κ α n) (k : κ) (fn : Option α) (memory : Bool)
    (woken : Fin n → Bool) : Option (Pool κ α n) :=
  match s.caller k with
  | .outside _ =>
      if Usable s.owner then
        match fn, memory with
        | some call, true => some
            { s.callerGoto k (.lock s.fresh) with
              heap := Function.update s.heap s.fresh (some ⟨call, none⟩)
              fresh := s.fresh + 1 }
        | _, _ => some (s.callerGoto k (.outside false))
      else none
  | .lock p =>
      if s.lock = none then some { s.callerGoto k (.submit p) with lock := some (.caller k) }
      else none
  | .submit p =>
      if s.stop = true then some { s.callerGoto k (.free p) with lock := none }
      else if s.Signalled woken then
        (s.heap p).bind fun task => (s.link p).map fun s' =>
          { s'.callerGoto k (.outside true) with
            worker := fun i => wake (woken i) (s.worker i)
            lock := none
            history := { s.history with accepted := s.history.accepted ++ [(p, task.call)] } }
      else none
  | .free p => (s.heap p).map fun task =>
      { s.callerGoto k (.outside false) with
        heap := Function.update s.heap p none
        history := { s.history with refused := s.history.refused ++ [(p, task.call)] } }

/-- The owner moves on. -/
def ownerGoto (s : Pool κ α n) (pc : OwnerPc) : Pool κ α n := { s with owner := pc }

/-- `pthread_join` of worker `j` can return. -/
def Joinable (s : Pool κ α n) (j : ℕ) : Prop := ∀ inside : j < n, s.worker ⟨j, inside⟩ = .exited

instance (s : Pool κ α n) (j : ℕ) : Decidable (s.Joinable j) :=
  inferInstanceAs (Decidable (∀ _ : j < n, _))

/-- No submitting thread is inside `threadPoolSubmit`. -/
def Unused (s : Pool κ α n) : Prop := ∀ k, (s.caller k).isOutside = true

instance [Fintype κ] (s : Pool κ α n) : Decidable s.Unused :=
  inferInstanceAs (Decidable (∀ _, _))

/-- `threadPoolCreate` and `threadPoolStop`. The pool is not submitted to any more when
`threadPoolStop` has joined the workers; that is up to its users. -/
def stepOwner [Fintype κ] (s : Pool κ α n) (succeeds : Bool) : Option (Pool κ α n) :=
  match s.owner with
  | .begin => some (s.ownerGoto (if 0 < n ∧ succeeds = true then .create 0 else .failed))
  | .create i =>
      if inside : i < n then
        if succeeds = true then
          some { s.ownerGoto (.create (i + 1)) with
                 worker := Function.update s.worker ⟨i, inside⟩ .lock }
        else some (s.ownerGoto (.storeStop i))
      else some (s.ownerGoto .serving)
  | .storeStop i => some { s.ownerGoto (.broadcast i) with stop := true }
  | .broadcast i => some
      { s.ownerGoto (.joinFailed i 0) with worker := fun j => wake true (s.worker j) }
  | .joinFailed i j =>
      if j < i then if s.Joinable j then some (s.ownerGoto (.joinFailed i (j + 1))) else none
      else some (s.ownerGoto .failed)
  | .failed => none
  | .serving => some (s.ownerGoto .lockStop)
  | .lockStop =>
      if s.lock = none then some { s.ownerGoto .setStop with lock := some .owner } else none
  | .setStop => some
      { s.ownerGoto (.join 0) with
        stop := true
        worker := fun j => wake true (s.worker j)
        lock := none }
  | .join j =>
      if j < n then if s.Joinable j then some (s.ownerGoto (.join (j + 1))) else none
      else if s.Unused then some (s.ownerGoto (.drain s.head)) else none
  | .drain cur =>
      match cur with
      | some p => (s.heap p).map fun task =>
          { s.ownerGoto (.drain task.next) with heap := Function.update s.heap p none }
      | none => some (s.ownerGoto .stopped)
  | .stopped => none

/-- One step of one thread. -/
def step [DecidableEq κ] [Fintype κ] (s : Pool κ α n) : Label κ α n → Option (Pool κ α n)
  | .worker i => s.stepWorker i
  | .owner succeeds => s.stepOwner succeeds
  | .caller k fn memory woken => s.stepCaller k fn memory woken

end Pool

end OperationSystems.ThreadPool
