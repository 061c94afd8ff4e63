import Mathlib.Data.List.Nodup
import Mathlib.Data.List.Count
import Mathlib.Algebra.Order.Group.Multiset
import OperationSystems.Foundation.Tally

/-!
# Tasks handed out in order

Tasks are accepted one after another, taken in the order in which they were
accepted, and each is started and later returned by the worker that took it.
`Sound` says that the tasks taken are the first ones accepted, and counts: a task was
taken as often as it was started or is held, and started as often as it has returned
or is being run. So when all hands are empty and nothing waits, every accepted task
has been run once.
-/

namespace Dispatch

/-- What a worker has in its hand. -/
inductive Hand (Task : Type*)
  | empty
  | holds (task : Task)
  | runs (task : Task)
  deriving DecidableEq

/-- The tasks accepted, taken, started and returned so far, oldest first, and the
workers' hands. -/
structure State (Worker Task : Type*) where
  accepted : List Task
  taken : List Task
  started : List Task
  returned : List Task
  hand : Worker → Hand Task

variable {Worker Task : Type*}

/-- What can happen to a task. -/
inductive Act (Worker Task : Type*)
  | accept (task : Task)
  | take (worker : Worker) (task : Task)
  | start (worker : Worker) (task : Task)
  | finish (worker : Worker) (task : Task)

section Moves

variable [DecidableEq Worker]

/-- One atomic act. -/
inductive Move : State Worker Task → Act Worker Task → State Worker Task → Prop
  | accept {state : State Worker Task} (task : Task) : task ∉ state.accepted →
      Move state (.accept task) { state with accepted := state.accepted ++ [task] }
  | take {state : State Worker Task} (worker : Worker) (task : Task) (rest : List Task) :
      state.hand worker = .empty → state.accepted = state.taken ++ task :: rest →
      Move state (.take worker task) { state with
        taken := state.taken ++ [task]
        hand := Function.update state.hand worker (.holds task) }
  | start {state : State Worker Task} (worker : Worker) (task : Task) :
      state.hand worker = .holds task →
      Move state (.start worker task) { state with
        started := state.started ++ [task]
        hand := Function.update state.hand worker (.runs task) }
  | finish {state : State Worker Task} (worker : Worker) (task : Task) :
      state.hand worker = .runs task →
      Move state (.finish worker task) { state with
        returned := state.returned ++ [task]
        hand := Function.update state.hand worker .empty }

/-- One act, or none. -/
def Moves (state : State Worker Task) : Option (Act Worker Task) → State Worker Task → Prop
  | none, next => next = state
  | some act, next => Move state act next

end Moves

/-! ## Tasks that were not started -/

variable [Fintype Worker] {state next : State Worker Task}

/-- The task a hand holds before it starts it. -/
def Hand.unstarted : Hand Task → Multiset Task
  | .holds task => {task}
  | _ => 0

/-- The tasks accepted and not started: those that wait and those in the hands. -/
def State.unstarted (state : State Worker Task) : Multiset Task :=
  (state.accepted.drop state.taken.length : Multiset Task) + Tally.tally Hand.unstarted state.hand

/-- What an act adds to the tasks that were not started. -/
def Act.accepts : Act Worker Task → Multiset Task
  | .accept task => {task}
  | _ => 0

/-- What an act takes from them. -/
def Act.starts : Act Worker Task → Multiset Task
  | .start _ task => {task}
  | _ => 0

/-- An act adds the task it accepts and takes away the task it starts. -/
theorem Move.unstarted [DecidableEq Worker] (order : state.taken <+: state.accepted)
    {act : Act Worker Task} (moved : Move state act next) :
    next.unstarted + act.starts = state.unstarted + act.accepts := by
  unfold State.unstarted
  cases moved with
  | accept task new =>
      dsimp only [Act.starts, Act.accepts]
      rw [List.drop_append_of_le_length order.length_le, ← Multiset.coe_add, add_zero,
        add_right_comm]
      rfl
  | take worker task rest empty split =>
      have turn := Tally.tally_update Hand.unstarted state.hand worker (.holds task)
      rw [empty] at turn
      have length : state.taken.length + 1 = (state.taken ++ [task]).length := by simp
      dsimp only [Act.starts, Act.accepts]
      rw [← length, split, ← List.drop_drop, List.drop_left]
      change (_ : Multiset Task) + 0 = _ + {task} at turn
      rw [add_zero] at turn
      rw [turn, add_zero, add_zero, ← add_assoc, add_right_comm]
      congr 1
      exact (Multiset.add_comm _ _).trans (Multiset.singleton_add task rest)
  | start worker task holds =>
      have turn := Tally.tally_update Hand.unstarted state.hand worker (.runs task)
      rw [holds] at turn
      change (_ : Multiset Task) + {task} = _ + 0 at turn
      dsimp only [Act.starts, Act.accepts]
      rw [add_assoc, turn, add_zero, add_zero]
  | finish worker task runs =>
      have same : Hand.unstarted Hand.empty = (state.hand worker).unstarted := by rw [runs]; rfl
      dsimp only [Act.starts, Act.accepts]
      rw [Tally.tally_update_same same]

/-! ## How often a task is handed on -/

variable [DecidableEq Task]

/-- 1 for a hand that holds the task and has not started it. -/
def holdWeight (task : Task) (hand : Hand Task) : ℕ :=
  if hand = .holds task then 1 else 0

/-- 1 for a hand that runs the task. -/
def runWeight (task : Task) (hand : Hand Task) : ℕ :=
  if hand = .runs task then 1 else 0

section Weights

variable (one task : Task)

@[simp] theorem holdWeight_empty : holdWeight one .empty = 0 := rfl

@[simp] theorem holdWeight_holds : holdWeight one (.holds task) = if task = one then 1 else 0 := by
  simp [holdWeight]

@[simp] theorem holdWeight_runs : holdWeight one (.runs task) = 0 := rfl

@[simp] theorem runWeight_empty : runWeight one .empty = 0 := rfl

@[simp] theorem runWeight_holds : runWeight one (.holds task) = 0 := rfl

@[simp] theorem runWeight_runs : runWeight one (.runs task) = if task = one then 1 else 0 := by
  simp [runWeight]

end Weights

/-- The order of the tasks, and how often each one was handed on. -/
structure Sound (state : State Worker Task) : Prop where
  distinct : state.accepted.Nodup
  order : state.taken <+: state.accepted
  taken_count : ∀ task, state.taken.count task =
    state.started.count task + Tally.tally (holdWeight task) state.hand
  started_count : ∀ task, state.started.count task =
    state.returned.count task + Tally.tally (runWeight task) state.hand

theorem Sound.start (empty : ∀ worker, state.hand worker = .empty) (accepted : state.accepted = [])
    (taken : state.taken = []) (started : state.started = []) (returned : state.returned = []) :
    Sound state where
  distinct := by simp [accepted]
  order := by simp [taken]
  taken_count := fun task => by
    rw [taken, started, Tally.tally_eq_zero fun worker => by rw [empty worker]; rfl]
    rfl
  started_count := fun task => by
    rw [started, returned, Tally.tally_eq_zero fun worker => by rw [empty worker]; rfl]
    rfl

theorem count_append_single (tasks : List Task) (one task : Task) :
    (tasks ++ [one]).count task = tasks.count task + if one = task then 1 else 0 := by
  rw [List.count_append, List.count_singleton]
  simp [beq_iff_eq]

/-- **The step lemma.** Every act keeps the invariant. -/
theorem Sound.move [DecidableEq Worker] (sound : Sound state) {act : Act Worker Task}
    (moved : Move state act next) : Sound next := by
  cases moved with
  | accept task new =>
      refine { sound with distinct := ?_, order := ?_ }
      · refine List.nodup_append.mpr ⟨sound.distinct, List.nodup_singleton task, ?_⟩
        rintro old member same equal rfl
        exact new (List.mem_singleton.mp equal ▸ member)
      · exact sound.order.trans (List.prefix_append _ _)
  | take worker task rest empty next =>
      refine { sound with order := ⟨rest, by rw [next]; simp⟩, taken_count := ?_,
                          started_count := ?_ }
      · intro one
        have turn := Tally.tally_update (holdWeight one) state.hand worker (.holds task)
        have count := sound.taken_count one
        simp only [empty, holdWeight_empty, holdWeight_holds] at turn
        dsimp only
        rw [count_append_single]
        omega
      · intro one
        rw [sound.started_count, Tally.tally_update_same]
        simp [empty]
  | start worker task holds =>
      refine { sound with taken_count := ?_, started_count := ?_ }
      · intro one
        have turn := Tally.tally_update (holdWeight one) state.hand worker (.runs task)
        have count := sound.taken_count one
        simp only [holds, holdWeight_holds, holdWeight_runs] at turn
        dsimp only
        rw [count_append_single]
        omega
      · intro one
        have turn := Tally.tally_update (runWeight one) state.hand worker (.runs task)
        have count := sound.started_count one
        simp only [holds, runWeight_holds, runWeight_runs] at turn
        dsimp only
        rw [count_append_single]
        omega
  | finish worker task runs =>
      refine { sound with taken_count := ?_, started_count := ?_ }
      · intro one
        rw [sound.taken_count, Tally.tally_update_same]
        simp [runs]
      · intro one
        have turn := Tally.tally_update (runWeight one) state.hand worker .empty
        have count := sound.started_count one
        simp only [runs, runWeight_runs, runWeight_empty] at turn
        dsimp only
        rw [count_append_single]
        omega

/-- No task is taken twice, so none is held or run by two workers or run again. -/
theorem Sound.count_taken_le (sound : Sound state) (task : Task) : state.taken.count task ≤ 1 :=
  List.nodup_iff_count_le_one.mp (sound.order.sublist.nodup sound.distinct) task

/-- No task is started twice. -/
theorem Sound.started_nodup (sound : Sound state) : state.started.Nodup := by
  refine List.nodup_iff_count_le_one.mpr fun task => ?_
  have count := sound.taken_count task
  have few := sound.count_taken_le task
  omega

/-- None returns twice. -/
theorem Sound.returned_nodup (sound : Sound state) : state.returned.Nodup := by
  refine List.nodup_iff_count_le_one.mpr fun task => ?_
  have count := sound.started_count task
  have few := List.nodup_iff_count_le_one.mp sound.started_nodup task
  omega

/-- Only what was taken is started. -/
theorem Sound.started_subset (sound : Sound state) : state.started ⊆ state.taken := by
  intro task member
  have count := sound.taken_count task
  have positive : 0 < state.started.count task := List.count_pos_iff.mpr member
  exact List.count_pos_iff.mp (by omega)

/-- Only what was started returns. -/
theorem Sound.returned_subset (sound : Sound state) : state.returned ⊆ state.started := by
  intro task member
  have count := sound.started_count task
  have positive : 0 < state.returned.count task := List.count_pos_iff.mpr member
  exact List.count_pos_iff.mp (by omega)

/-- Where all hands are empty and nothing waits, every accepted task was started and
has returned, once. -/
theorem Sound.all_done (sound : Sound state) (empty : ∀ worker, state.hand worker = .empty)
    (all : state.taken = state.accepted) :
    state.started.Perm state.accepted ∧ state.returned.Perm state.accepted := by
  have counts : ∀ task, state.started.count task = state.accepted.count task ∧
      state.returned.count task = state.accepted.count task := by
    intro task
    have taken := sound.taken_count task
    have started := sound.started_count task
    rw [Tally.tally_eq_zero fun worker => by rw [empty worker]; rfl] at taken started
    rw [all] at taken
    omega
  exact ⟨List.perm_iff_count.mpr fun task => (counts task).1,
    List.perm_iff_count.mpr fun task => (counts task).2⟩

end Dispatch
