import OperationSystems.Foundation.Tally
import OperationSystems.ThreadPool.Turns

/-!
# No task waits beside an idle worker

A submitted task wakes a sleeper if there is one, and a worker that is awake comes to
the queue before it sleeps. So while anybody sleeps, the workers that are on their way
to the queue are no fewer than the tasks in it, whoever takes them.
-/

namespace OperationSystems.ThreadPool

open Dispatch

/-- 1 for a worker that looks at the queue before it sleeps and has no task: it goes for
the lock or is between the lock and the queue. -/
def WorkerPc.seeks : WorkerPc → ℕ
  | .lock => 1
  | .relock => 1
  | .test => 1
  | .check => 1
  | .take => 1
  | _ => 0

theorem seeks_le_wake (woken : Bool) (pc : WorkerPc) : pc.seeks ≤ (wake woken pc).seeks := by
  unfold wake
  split_ifs with sleeps
  · rw [sleeps.2]
    exact Nat.zero_le _
  · exact le_rfl

namespace Pool

variable {κ α : Type*} {n : ℕ} {s s' : Pool κ α n}

/-- While a worker sleeps, no more tasks wait than workers seek one. -/
def Attended (s : Pool κ α n) : Prop :=
  (∃ i, s.worker i = .asleep) → s.queue.length ≤ Tally.tally WorkerPc.seeks s.worker

/-- An empty queue needs nobody. -/
theorem Attended.of_empty (empty : s.queue = []) : s.Attended := fun _ => by
  rw [empty]
  exact Nat.zero_le _

/-- A worker moves on, and stops seeking only with a task of the queue. -/
theorem Attended.goto (attended : s.Attended) {i : Fin n} {pc : WorkerPc}
    (worker : s'.worker = Function.update s.worker i pc) (awake : pc ≠ .asleep)
    (pays : s'.queue.length + (s.worker i).seeks ≤ s.queue.length + pc.seeks) : s'.Attended := by
  rintro ⟨j, sleeps⟩
  rw [worker] at sleeps ⊢
  have turn := Tally.tally_update WorkerPc.seeks s.worker i pc
  have before := attended ⟨j, by
    rwa [Function.update_of_ne] at sleeps
    rintro rfl
    rw [Function.update_self] at sleeps
    exact awake sleeps⟩
  omega

/-- Nothing changes that matters here. -/
theorem Attended.congr (attended : s.Attended) (worker : s'.worker = s.worker)
    (queue : s'.queue = s.queue) : s'.Attended := by
  unfold Attended
  rw [worker, queue]
  exact attended

/-- Nobody sleeps. -/
theorem Attended.of_woken {before : Fin n → WorkerPc}
    (worker : s'.worker = fun i => wake true (before i)) : s'.Attended := by
  rintro ⟨i, sleeps⟩
  rw [worker] at sleeps
  have asleep := eq_of_wake sleeps (by simp)
  simp [asleep, wake] at sleeps

/-- A task is queued and a sleeper is woken. -/
theorem Attended.accept (attended : s.Attended) {woken : Fin n → Bool} {one : Ptr × α}
    (signalled : s.Signalled woken) (worker : s'.worker = fun i => wake (woken i) (s.worker i))
    (order : s.history.taken <+: s.history.accepted)
    (accepted : s'.history.accepted = s.history.accepted ++ [one])
    (taken : s'.history.taken = s.history.taken) : s'.Attended := by
  have longer : s'.queue.length = s.queue.length + 1 := by
    rw [queue_of_accept order accepted taken, List.length_append]
    rfl
  rintro ⟨j, sleeps⟩
  rw [worker] at sleeps
  have asleep := eq_of_wake sleeps (by simp)
  have before := attended ⟨j, asleep⟩
  obtain ⟨i, slept, called⟩ := signalled ⟨j, asleep⟩
  have more : Tally.tally WorkerPc.seeks s.worker < Tally.tally WorkerPc.seeks s'.worker := by
    rw [worker]
    refine Finset.sum_lt_sum (fun other _ => seeks_le_wake _ _) ⟨i, Finset.mem_univ i, ?_⟩
    simp [slept, called, wake, WorkerPc.seeks]
  omega

/-- Where the queue is not empty, only a worker that takes a task stops seeking one. -/
theorem Turn.pays {stop : Bool} {head : Option Ptr} {before after : WorkerPc}
    (turn : Turn stop head before after) (tasks : head ≠ none) (waits : before ≠ .wait) :
    after ≠ .asleep ∧ before.seeks ≤ after.seeks + if before = .take then 1 else 0 := by
  cases turn with
  | waits _ empty => exact absurd empty tasks
  | sleeps => exact absurd rfl waits
  | exits _ empty => exact absurd empty tasks
  | _ => simp [WorkerPc.seeks]

theorem stepWorker_attended (invariant : s.Invariant) (attended : s.Attended) {i : Fin n}
    (stepped : s.stepWorker i = some s') : s'.Attended := by
  obtain ⟨pc, turned⟩ := stepWorker_turned invariant stepped
  by_cases empty : s.head = none
  · have idle : s.worker i ≠ .take := fun takes => invariant.sane.takes i takes empty
    refine .of_empty ?_
    rw [queue, turned.waiting idle]
    exact invariant.queue_nil_iff.mpr empty
  · obtain ⟨awake, pays⟩ := turned.turn.pays empty fun waits =>
      empty (invariant.sane.waits i waits).1
    apply attended.goto turned.worker awake
    by_cases takes : s.worker i = .take
    · obtain ⟨one, queue⟩ := turned.taking takes
      rw [if_pos takes] at pays
      simp only [Pool.queue, List.length_map, queue, List.length_cons]
      omega
    · rw [if_neg takes] at pays
      rw [queue, turned.waiting takes, queue]
      omega

theorem stepCaller_attended [DecidableEq κ] (invariant : s.Invariant) (attended : s.Attended)
    {k : κ} {fn : Option α} {memory : Bool} {woken : Fin n → Bool}
    (stepped : s.stepCaller k fn memory woken = some s') : s'.Attended := by
  unfold stepCaller at stepped
  cases place : s.caller k with
  | outside accepted =>
      rw [place] at stepped
      dsimp only at stepped
      split_ifs at stepped
      split at stepped <;> obtain rfl := Option.some.inj stepped
      · exact attended.congr rfl rfl
      · exact attended.congr rfl rfl
  | lock p =>
      rw [place] at stepped
      dsimp only at stepped
      split_ifs at stepped
      obtain rfl := Option.some.inj stepped
      exact attended.congr rfl rfl
  | submit p =>
      rw [place] at stepped
      dsimp only at stepped
      split_ifs at stepped with stops signalled
      · obtain rfl := Option.some.inj stepped
        exact attended.congr rfl rfl
      · obtain ⟨task, found, stepped⟩ := Option.bind_eq_some_iff.mp stepped
        obtain ⟨s₁, linked, rfl⟩ := Option.map_eq_some_iff.mp stepped
        exact attended.accept signalled rfl invariant.memory.order rfl rfl
  | free p =>
      rw [place] at stepped
      obtain ⟨task, _, rfl⟩ := Option.map_eq_some_iff.mp stepped
      exact attended.congr rfl rfl

theorem stepOwner_attended [Fintype κ] (invariant : s.Invariant) (attended : s.Attended)
    {succeeds : Bool} (stepped : s.stepOwner succeeds = some s') : s'.Attended := by
  unfold stepOwner at stepped
  cases place : s.owner with
  | create i =>
      rw [place] at stepped
      dsimp only at stepped
      split_ifs at stepped with inside <;> obtain rfl := Option.some.inj stepped
      · have absent : s.worker ⟨i, inside⟩ = .absent :=
          (invariant.sane.created (by simp [place]) _).mpr (by simp [place, OwnerPc.created])
        exact attended.goto rfl (by simp) (by rw [absent]; exact Nat.le_succ _)
      · exact attended.congr rfl rfl
      · exact attended.congr rfl rfl
  | broadcast i =>
      rw [place] at stepped
      obtain rfl := Option.some.inj stepped
      exact .of_woken rfl
  | setStop =>
      rw [place] at stepped
      obtain rfl := Option.some.inj stepped
      exact .of_woken rfl
  | joinFailed i j =>
      rw [place] at stepped
      dsimp only at stepped
      split_ifs at stepped <;> obtain rfl := Option.some.inj stepped
      · exact attended.congr rfl rfl
      · exact attended.congr rfl rfl
  | lockStop =>
      rw [place] at stepped
      dsimp only at stepped
      split_ifs at stepped
      obtain rfl := Option.some.inj stepped
      exact attended.congr rfl rfl
  | join j =>
      rw [place] at stepped
      dsimp only at stepped
      split_ifs at stepped <;> obtain rfl := Option.some.inj stepped
      · exact attended.congr rfl rfl
      · exact attended.congr rfl rfl
  | drain cur =>
      rw [place] at stepped
      obtain ⟨rfl, _⟩ := invariant.sane.drained cur place
      obtain rfl := Option.some.inj stepped
      exact attended.congr rfl rfl
  | failed =>
      rw [place] at stepped
      cases stepped
  | stopped =>
      rw [place] at stepped
      cases stepped
  | _ =>
      rw [place] at stepped
      obtain rfl := Option.some.inj stepped
      exact attended.congr rfl rfl

variable [DecidableEq κ] [Fintype κ]

/-- **The step lemma.** Waiting tasks stay attended to. -/
theorem step_attended (invariant : s.Invariant) (attended : s.Attended) {label : Label κ α n}
    (stepped : s.step label = some s') : s'.Attended := by
  cases label with
  | worker i => exact stepWorker_attended invariant attended stepped
  | owner succeeds => exact stepOwner_attended invariant attended stepped
  | caller k fn memory woken => exact stepCaller_attended invariant attended stepped

/-- **The run lemma.** So they are in every reachable state. -/
theorem reached_attended (reached : Transition.Reaches step (start κ α n) s) :
    s.Invariant ∧ s.Attended := by
  refine reached.invariant (motive := fun s : Pool κ α n => s.Invariant ∧ s.Attended)
    ⟨Invariant.start, fun ⟨i, sleeps⟩ => by cases sleeps⟩ ?_
  rintro s label next ⟨invariant, attended⟩ _ stepped
  exact ⟨(step_refined invariant stepped).invariant, step_attended invariant attended stepped⟩

omit [DecidableEq κ] [Fintype κ] in
/-- Where nobody is inside the lock, those that seek a task go for the lock. -/
theorem seeks_eq_card (owned : s.Owned) (free : s.lock = none) :
    Tally.tally WorkerPc.seeks s.worker =
      (Finset.univ.filter fun i => s.worker i = .lock ∨ s.worker i = .relock).card := by
  rw [Finset.card_filter]
  refine Finset.sum_congr rfl fun i _ => ?_
  have outside : ¬ (s.worker i).Inside := fun inside => by
    have held := (owned (.worker i)).mpr inside
    rw [free] at held
    cases held
  cases place : s.worker i with
  | test => exact absurd (place ▸ trivial : (s.worker i).Inside) outside
  | check => exact absurd (place ▸ trivial : (s.worker i).Inside) outside
  | take => exact absurd (place ▸ trivial : (s.worker i).Inside) outside
  | _ => simp [WorkerPc.seeks]

/-- **No task waits beside an idle worker.** In every state of every run with the lock
free in which a worker sleeps, the queue is no longer than the workers that are awake,
have no task and go for the lock. -/
theorem queue_length_le (reached : Transition.Reaches step (start κ α n) s) (free : s.lock = none)
    (sleeps : ∃ i, s.worker i = .asleep) :
    s.queue.length ≤
      (Finset.univ.filter fun i => s.worker i = .lock ∨ s.worker i = .relock).card := by
  obtain ⟨invariant, attended⟩ := reached_attended reached
  rw [← seeks_eq_card invariant.owned free]
  exact attended sleeps

/-- The theorem where two workers sleep, one is signalled, and a third one that was
never asleep is on its way as well. -/
theorem queue_length_le_run : ∃ s : Pool (Fin 1) ℕ 3,
    Transition.Reaches step (start (Fin 1) ℕ 3) s ∧ s.queue.length = 1 ∧
      (∃ i, s.worker i = .asleep) ∧ s.queue.length ≤
        (Finset.univ.filter fun i => s.worker i = .lock ∨ s.worker i = .relock).card := by
  have ran : ((Transition.run step (start (Fin 1) ℕ 3)
      (List.replicate 5 (.owner true) ++ List.replicate 3 (.worker 0) ++
        List.replicate 3 (.worker 1) ++
        List.replicate 3 (.caller 0 (some 7) true fun i => i == 0))).map fun s =>
          (s.lock, s.worker 1, s.queue.length)) = some (none, .asleep, 1) := by
    decide +kernel
  obtain ⟨s, run, seen⟩ := Option.map_eq_some_iff.mp ran
  simp only [Prod.mk.injEq] at seen
  obtain ⟨free, sleeps, one⟩ := seen
  have reached := Transition.Reaches.of_run run .start
  exact ⟨s, reached, one, ⟨1, sleeps⟩, queue_length_le reached free ⟨1, sleeps⟩⟩

end Pool

end OperationSystems.ThreadPool
