import Mathlib.Logic.Function.Basic
import OperationSystems.Foundation.LinkedCells
import OperationSystems.Foundation.Transition

/-!
# User threads on one machine

`uthread.c` with the code that calls it. User code is a tree of the calls it makes, and a
saved context is the code that runs when it is loaded: who owns the stack it runs on, and
where it is. Only one context runs at a time. A step is a call up to the next switch of
contexts, or what the library does behind a switch.

A saved context can be loaded after the call that saved it has returned: main's, where it
yields while `current` is not NULL, or a uthread's, where it calls `uthread_run`. In C that
is undefined, since the frame of the call is gone. Here the code behind the call runs once
more, as if the frame were still there, so that there are more runs than C defines and
every defined one is among them.
-/

namespace OperationSystems.UserThread

/-- The address of a `uthread_t`. -/
abbrev Ptr : Type := ℕ

/-- A `void *`; NULL is 0. -/
abbrev Word : Type := ℕ

/-- User code up to its return. What follows a `uthread_create` depends on whether it
returned 0. A call with a null argument returns at once and is left out. -/
inductive Code
  | done (result : Word)
  | create (t : Ptr) (startRoutine : Word → Code) (arg : Word) (next : Bool → Code)
  | run (t : Ptr) (next : Code)
  | yield (next : Code)
  | runAll (next : Code)

/-- Where a context is. `looping` is the head of the loop of `uthread_run_all` and
`resumed` the place behind its `swapcontext`, with the local `t`; `ended` is behind the
`uthread_yield` of `uthread_entry`. -/
inductive Point
  | code (code : Code)
  | entry
  | looping (next : Code)
  | resumed (t : Ptr) (next : Code)
  | ended

/-- A `ucontext_t`; `owner` is the uthread on whose stack it runs, and `none` for main. -/
structure Context where
  owner : Option Ptr
  point : Point

inductive UthreadState
  | ready
  | running
  | finished
  deriving DecidableEq

/-- `uthread_t`. A stack is known by the number of its `malloc`. -/
structure Uthread where
  context : Option Context
  stack : Option ℕ
  startRoutine : Option (Word → Code)
  arg : Word
  retval : Word
  state : UthreadState
  next : Option Ptr

/-- What is written by `memset(t, 0, sizeof(*t))`. -/
def zeroed : Uthread where
  context := none
  stack := none
  startRoutine := none
  arg := 0
  retval := 0
  state := .ready
  next := none

/-- `uthread_create` has returned 0 for the object, and has not been called on it since. -/
def Uthread.Created (u : Uthread) : Prop := u.startRoutine.isSome = true

/-- A `swapcontext` to the uthread, its call of `start_routine` and that one's return. -/
inductive Event
  | resumed (t : Ptr)
  | entered (t : Ptr) (arg : Word)
  | returned (t : Ptr) (result : Word)
  deriving DecidableEq

/-- A call of `uthread_create` that has returned 0. -/
structure Creation where
  object : Ptr
  startRoutine : Word → Code
  arg : Word

/-- Memory and the running context. `objects` are the arguments of `uthread_create`,
`created` its calls that have returned 0, `mallocs` the objects for which stacks were
allocated and `frees` the stacks freed; in `heap`, `none` is memory that has not been an
argument of `uthread_create`. -/
structure World where
  heap : Ptr → Option Uthread
  current : Option Ptr
  readyq : Option Ptr
  mainCtx : Option Context
  running : Context
  objects : List Ptr
  created : List Creation
  mallocs : List Ptr
  frees : List ℕ
  events : List Event

/-- How `malloc` and `getcontext` answer a `uthread_create`. -/
inductive Answer
  | granted
  | noMemory
  | noContext
  deriving DecidableEq

namespace World

/-- main is about to run. -/
def start (main : Code) : World where
  heap := fun _ => none
  current := none
  readyq := none
  mainCtx := none
  running := ⟨none, .code main⟩
  objects := []
  created := []
  mallocs := []
  frees := []
  events := []

def goto (w : World) (point : Point) : World :=
  { w with running := { w.running with point := point } }

def install (w : World) (t : Ptr) (u : Uthread) : World :=
  { w with heap := Function.update w.heap t (some u) }

/-- Write through a pointer. -/
def modify (w : World) (t : Ptr) (f : Uthread → Uthread) : Option World :=
  (w.heap t).map fun u => w.install t (f u)

/-! ## The ready queue -/

/-- What `readyq` and the `next` fields hold; the cell `none` is `readyq`. -/
def cells (w : World) : Option Ptr → Option (Option Ptr)
  | none => some w.readyq
  | some t => (w.heap t).map Uthread.next

def store (w : World) (cell value : Option Ptr) : Option World :=
  match cell with
  | none => some { w with readyq := value }
  | some t => w.modify t fun u => { u with next := value }

/-- `q_push`. -/
def qPush (w : World) (t : Ptr) : Option World :=
  (w.store (some t) w.readyq).map fun w => { w with readyq := some t }

def isReady (w : World) (t : Ptr) : Option Bool :=
  (w.heap t).map fun u => decide (u.state = .ready)

/-- `q_pop_ready`. A chain that has not ended after all objects goes round in circles,
and so does the loop then. -/
def qPopReady (w : World) : Option (Option Ptr × World) := do
  let pp ← LinkedCells.seek some w.cells w.isReady (w.objects.length + 1) none
  match ← w.cells pp with
  | none => some (none, w)
  | some t =>
      let u ← w.heap t
      let w ← w.store pp u.next
      let w ← w.store (some t) none
      some (some t, w)

/-! ## Contexts -/

/-- Save the running context, to be continued at `after`; the place `none` is `main_ctx`. -/
def saveContext (w : World) (place : Option Ptr) (after : Point) : Option World :=
  match place with
  | none => some { w with mainCtx := some ⟨w.running.owner, after⟩ }
  | some t => w.modify t fun u => { u with context := some ⟨w.running.owner, after⟩ }

/-- Go on where a context was saved, also if the call that saved it has returned. -/
def loadContext (w : World) (place : Option Ptr) : Option World :=
  match place with
  | none => w.mainCtx.map fun context => { w with running := context }
  | some t => do
      let u ← w.heap t
      let context ← u.context
      some { w with running := context, events := w.events ++ [.resumed t] }

/-- `swapcontext`; saving and loading the same context just continues. -/
def swapcontext (w : World) (save load : Option Ptr) (after : Point) : Option World :=
  (w.saveContext save after).bind fun w => w.loadContext load

/-! ## The library -/

/-- `uthread_create`. -/
def uthreadCreate (w : World) (t : Ptr) (startRoutine : Word → Code) (arg : Word)
    (answer : Answer) : Option (Bool × World) :=
  let w := { w with objects := t :: w.objects }
  let stack := w.mallocs.length
  match answer with
  | .noMemory => some (false, w.install t zeroed)
  -- the freed stack stays in the field
  | .noContext => some (false,
      { w.install t { zeroed with stack := some stack } with
        mallocs := w.mallocs ++ [t]
        frees := w.frees ++ [stack] })
  | .granted =>
      let u := { zeroed with
        context := some ⟨some t, .entry⟩
        stack := some stack
        startRoutine := some startRoutine
        arg := arg }
      let made : World := { w.install t u with
        created := w.created ++ [⟨t, startRoutine, arg⟩]
        mallocs := w.mallocs ++ [t] }
      (made.qPush t).map fun w => (true, w)

/-- `current = t; t->state = UTHREAD_RUNNING;` -/
def makeRunning (w : World) (t : Ptr) : Option World :=
  { w with current := some t }.modify t fun u => { u with state := .running }

/-- `uthread_run`; `uthread_run_all` starts a uthread in the same way. -/
def uthreadRun (w : World) (t : Ptr) (after : Point) : Option World := do
  let w ← w.makeRunning t
  w.swapcontext none (some t) after

/-- The first part of `uthread_yield`: a running uthread goes back to the queue. -/
def requeue (w : World) : Option World :=
  match w.current with
  | none => some w
  | some prev => do
      let u ← w.heap prev
      if u.state = .running then
        (w.install prev { u with state := .ready }).qPush prev
      else some w

/-- `uthread_yield`, which returns to `after`. -/
def uthreadYield (w : World) (after : Point) : Option World := do
  let prev := w.current
  let w ← w.requeue
  match ← w.qPopReady with
  | (none, w) => if prev.isSome then w.swapcontext prev none after else some (w.goto after)
  | (some next, w) =>
      let w ← w.makeRunning next
      w.swapcontext prev (some next) after

/-- The end of `uthread_entry`. -/
def finish (w : World) : Option World := do
  let t ← w.current
  let w ← w.modify t fun u => { u with state := .finished }
  w.uthreadYield .ended

/-- `uthread_entry` up to the call of `start_routine`. -/
def enter (w : World) : Option World := do
  let t ← w.current
  let u ← w.heap t
  match u.startRoutine, w.running.owner with
  | some startRoutine, some self =>
      some { w.goto (.code (startRoutine u.arg)) with events := w.events ++ [.entered self u.arg] }
  | _, _ => w.finish

/-- `start_routine` returns to `uthread_entry`. `current` is read after the call. -/
def leave (w : World) (self : Ptr) (result : Word) : Option World := do
  let t ← w.current
  let w ← w.modify t fun u => { u with retval := result }
  ({ w with events := w.events ++ [.returned self result] } : World).finish

/-- What `uthread_run_all` does when `t` has given control back. -/
def collect (w : World) (t : Ptr) : Option World := do
  let u ← w.heap t
  match u.state, u.stack with
  | .finished, some stack =>
      some { w.install t { u with stack := none } with frees := w.frees ++ [stack] }
  | .ready, _ => w.qPush t
  | _, _ => some w

/-- One step of the running context. Behind the return of main there is none. -/
def step (w : World) (answer : Answer) : Option World :=
  match w.running.point with
  | .code (.done result) => w.running.owner.bind fun self => w.leave self result
  | .code (.create t startRoutine arg next) =>
      (w.uthreadCreate t startRoutine arg answer).map fun (created, w) =>
        w.goto (.code (next created))
  | .code (.run t next) => w.uthreadRun t (.code next)
  | .code (.yield next) => w.uthreadYield (.code next)
  | .code (.runAll next) => some (w.goto (.looping next))
  | .entry => w.enter
  | .looping next => do
      match ← w.qPopReady with
      | (none, w) => some (w.goto (.code next))
      | (some t, w) => w.uthreadRun t (.resumed t next)
  | .resumed t next => (w.collect t).map fun w => w.goto (.looping next)
  -- `uthread_entry` returns, and `uc_link` is `&main_ctx`
  | .ended => w.loadContext none

end World

end OperationSystems.UserThread
