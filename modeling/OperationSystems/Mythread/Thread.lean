import Mathlib.Data.Finset.Card
import Mathlib.Data.Fintype.Basic
import OperationSystems.Foundation.Transition

/-!
# A thread on a stack of its own

`mythread_entry`, `mythread_join` and `mythread_detach` on one `mythread_t`: the thread
that `mythread_create` has cloned, and any number of calls by other threads. Every load,
store and exchange of a flag and every system call is one step, and the steps interleave
in any order. The flags are only ever 0 and 1.
-/

namespace OperationSystems.Mythread

/-- A `void *`; NULL is 0. -/
abbrev Word : Type := ℕ

/-- Where the created thread is in `mythread_entry`. At `leaving` only `return 0` is left. -/
inductive EntryPc
  | running
  | storeCompleted
  | wake
  | loadDetached
  | loadJoined
  | unmap
  | leaving
  | ended
  deriving DecidableEq

/-- A call by another thread; `wanted` says that `retval` of `mythread_join` is not NULL. -/
inductive Call
  | join (wanted : Bool)
  | detach
  deriving DecidableEq

/-- Where a call is. `joinLoadDetached` to `readRetval` are in `mythread_join`,
`storeDetached` and `testCompleted` in `mythread_detach`, and both end with the exchange
of `joined`. `out` is what was stored through `retval`. -/
inductive CallPc
  | joinLoadDetached
  | loadCompleted
  | wait
  | asleep
  | readRetval
  | storeDetached
  | testCompleted
  | exchange (out : Option Word)
  | unmap (out : Option Word)
  | returned (result : ℤ) (out : Option Word)
  deriving DecidableEq

/-- The first step of a call. -/
def Call.begin : Call → CallPc
  | .join _ => .joinLoadDetached
  | .detach => .storeDetached

/-- The `mythread_t`, the created thread, the calls, and who has unmapped `stack`, oldest
first; `none` is the created thread. -/
structure World (ι : Type) where
  completed : Bool
  detached : Bool
  joined : Bool
  retval : Word
  entry : EntryPc
  caller : ι → CallPc
  unmaps : List (Option ι)

/-- Which step is taken: the created thread's, with the sleepers that it wakes should it
be at its `futex_wake`, or that of a call. -/
inductive Label (ι : Type)
  | entry (woken : Finset ι)
  | caller (i : ι)

namespace World

variable {ι : Type}

/-- Behind a `mythread_create` that has returned 0, with the calls that will be made. -/
def start (call : ι → Call) : World ι where
  completed := false
  detached := false
  joined := false
  retval := 0
  entry := .running
  caller := fun i => (call i).begin
  unmaps := []

def goto [DecidableEq ι] (w : World ι) (i : ι) (pc : CallPc) : World ι :=
  { w with caller := Function.update w.caller i pc }

section Goto

variable [DecidableEq ι] {w : World ι} {i j : ι} {pc now : CallPc}

theorem caller_goto_self : (w.goto i pc).caller i = pc := Function.update_self ..

theorem caller_goto_of_ne (apart : j ≠ i) : (w.goto i pc).caller j = w.caller j :=
  Function.update_of_ne apart _ _

/-- Where a call is after a move of one. -/
theorem caller_goto_cases (there : (w.goto i pc).caller j = now) :
    j = i ∧ pc = now ∨ j ≠ i ∧ w.caller j = now := by
  by_cases same : j = i
  · subst same
    exact .inl ⟨rfl, caller_goto_self.symm.trans there⟩
  · exact .inr ⟨same, (caller_goto_of_ne same).symm.trans there⟩

end Goto

section Wake

variable [Fintype ι]

/-- The calls that sleep on `completed`. -/
def sleepers (w : World ι) : Finset ι := Finset.univ.filter fun i => w.caller i = .asleep

variable [DecidableEq ι]

/-- `futex_wake`: it wakes `n` sleepers, or all if there are fewer. -/
def futexWake (w : World ι) (n : ℕ) (woken : Finset ι) : Option (World ι) :=
  if woken ⊆ w.sleepers ∧ woken.card = min n w.sleepers.card then
    some { w with caller := fun i => if i ∈ woken then .loadCompleted else w.caller i }
  else none

/-- `mythread_entry`, where `start_routine` returns `value`. -/
def stepEntry (value : Word) (w : World ι) (woken : Finset ι) : Option (World ι) :=
  match w.entry with
  | .running => some { w with retval := value, entry := .storeCompleted }
  | .storeCompleted => some { w with completed := true, entry := .wake }
  | .wake => (w.futexWake 1 woken).map fun w => { w with entry := .loadDetached }
  | .loadDetached => some { w with entry := if w.detached then .loadJoined else .leaving }
  | .loadJoined => some { w with entry := if w.joined then .leaving else .unmap }
  | .unmap => some { w with unmaps := w.unmaps ++ [none], entry := .leaving }
  | .leaving => some { w with entry := .ended }
  | .ended => none

end Wake

variable [DecidableEq ι]

/-- What a call of `mythread_join` stores through `retval`. -/
def stored (w : World ι) : Call → Option Word
  | .join true => some w.retval
  | _ => none

/-- `mythread_join` and `mythread_detach`. -/
def stepCaller (call : ι → Call) (w : World ι) (i : ι) : Option (World ι) :=
  match w.caller i with
  | .joinLoadDetached =>
      some (w.goto i (if w.detached then .returned (-1) none else .loadCompleted))
  | .loadCompleted => some (w.goto i (if w.completed then .readRetval else .wait))
  -- `futex_wait` compares and falls asleep in one step
  | .wait => some (w.goto i (if w.completed then .loadCompleted else .asleep))
  -- a sleeper may also return without having been woken
  | .asleep => some (w.goto i .loadCompleted)
  | .readRetval => some (w.goto i (.exchange (w.stored (call i))))
  | .storeDetached => some { w.goto i .testCompleted with detached := true }
  | .testCompleted =>
      some (w.goto i (if w.completed then .exchange none else .returned 0 none))
  | .exchange out =>
      some { w.goto i (if w.joined then .returned 0 out else .unmap out) with joined := true }
  | .unmap out => some { w.goto i (.returned 0 out) with unmaps := w.unmaps ++ [some i] }
  | .returned _ _ => none

variable [Fintype ι]

def step (value : Word) (call : ι → Call) (w : World ι) : Label ι → Option (World ι)
  | .entry woken => w.stepEntry value woken
  | .caller i => w.stepCaller call i

/-- The created thread and all calls have ended. -/
def Over (w : World ι) : Prop :=
  w.entry = .ended ∧ ∀ i, ∃ result out, w.caller i = .returned result out

end World

end OperationSystems.Mythread
