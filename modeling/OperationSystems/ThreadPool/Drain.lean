import OperationSystems.Foundation.Tally
import OperationSystems.ThreadPool.Turns

/-!
# Every accepted task runs once

What is accepted is taken in order and run once, by the invariant. That it is run at
all is that `threadPoolStop` returns: once `stop` is set every step lowers the work
that is left, unless it begins another submission, and some such step is always
possible; and the lock on which `threadPoolStop` may wait before that is given up by
whoever holds it.
-/

namespace OperationSystems.ThreadPool

open LinkedCells Dispatch

/-- The steps a worker can take, once the pool stops, before it exits or has a task. -/
def WorkerPc.work : WorkerPc → ℕ
  | .start _ => 6
  | .running _ => 5
  | .free _ => 4
  | .lock => 3
  | .relock => 3
  | .test => 2
  | .check => 1
  | _ => 0

/-- The steps to the end of a call that is refused. -/
def CallerPc.work : CallerPc → ℕ
  | .outside _ => 0
  | .lock _ => 3
  | .submit _ => 2
  | .free _ => 1

/-- The steps to the end of the joins, on either path. -/
def OwnerPc.work (n : ℕ) : OwnerPc → ℕ
  | .joinFailed i j => 1 + (i - j)
  | .join j => 2 + (n - j)
  | .drain _ => 1
  | _ => 0

/-- The steps of a submitting thread to the end of its critical section. -/
def CallerPc.inside : CallerPc → ℕ
  | .submit _ => 1
  | _ => 0

/-- The steps of a worker to the end of its critical section. -/
def WorkerPc.inside : WorkerPc → ℕ
  | .test => 3
  | .check => 2
  | .wait => 1
  | .take => 1
  | _ => 0

namespace Pool

variable {κ α : Type*} {n : ℕ} {s s' : Pool κ α n}

/-- The steps that are left once the pool stops, with seven for every task in the
queue: the worker that takes it runs it and comes back for the next. -/
def work [Fintype κ] (s : Pool κ α n) : ℕ :=
  7 * s.waiting.length + Tally.tally WorkerPc.work s.worker +
    Tally.tally CallerPc.work s.caller + s.owner.work n

/-- The label begins another submission. -/
def Opens (s : Pool κ α n) : Label κ α n → Prop
  | .caller k _ _ _ => (s.caller k).isOutside = true
  | _ => False

/-- A worker's step exchanges its own work and the queue's. -/
theorem work_worker [Fintype κ] {i : Fin n} {pc : WorkerPc}
    (worker : s'.worker = Function.update s.worker i pc) (caller : s'.caller = s.caller)
    (owner : s'.owner = s.owner) :
    s'.work + 7 * s.waiting.length + (s.worker i).work =
      s.work + 7 * s'.waiting.length + pc.work := by
  have turn := Tally.tally_update WorkerPc.work s.worker i pc
  unfold work
  rw [worker, caller, owner]
  omega

/-- A submitting thread's step exchanges its own work. -/
theorem work_caller_lt [DecidableEq κ] [Fintype κ] {k : κ} {pc : CallerPc}
    (worker : s'.worker = s.worker) (caller : s'.caller = Function.update s.caller k pc)
    (owner : s'.owner = s.owner) (waits : s'.waiting = s.waiting)
    (lower : pc.work < (s.caller k).work) : s'.work < s.work := by
  have turn := Tally.tally_update CallerPc.work s.caller k pc
  unfold work
  rw [worker, caller, owner, waits]
  omega

/-- A task is worth more than taking and running it. -/
theorem Turn.work_lt {stop : Bool} {head : Option Ptr} {before after : WorkerPc}
    (turn : Turn stop head before after) (on : stop = true) (waits : before ≠ .wait)
    (sleeps : before ≠ .asleep) :
    after.work < before.work + if before = .take then 7 else 0 := by
  cases turn with
  | waits going =>
      rw [on] at going
      cases going
  | sleeps => exact absurd rfl waits
  | wakes => exact absurd rfl sleeps
  | _ => simp [WorkerPc.work]

theorem stepWorker_work_lt [Fintype κ] (invariant : s.Invariant) (on : s.stop = true) {i : Fin n}
    (waits : s.worker i ≠ .wait) (sleeps : s.worker i ≠ .asleep)
    (stepped : s.stepWorker i = some s') : s'.work < s.work ∧ s'.owner = s.owner := by
  obtain ⟨pc, turned⟩ := stepWorker_turned invariant stepped
  have exchange := work_worker turned.worker turned.caller turned.owner
  have less := turned.turn.work_lt on waits sleeps
  refine ⟨?_, turned.owner⟩
  by_cases takes : s.worker i = .take
  · obtain ⟨one, queue⟩ := turned.taking takes
    rw [queue, List.length_cons] at exchange
    rw [if_pos takes] at less
    omega
  · rw [turned.waiting takes] at exchange
    rw [if_neg takes] at less
    omega

theorem stepCaller_work_lt [DecidableEq κ] [Fintype κ] (invariant : s.Invariant)
    (past : Past s.owner) {k : κ} {fn : Option α} {memory : Bool} {woken : Fin n → Bool}
    (inside : (s.caller k).isOutside = false)
    (stepped : s.stepCaller k fn memory woken = some s') :
    s'.work < s.work ∧ s'.owner = s.owner := by
  have on := invariant.sane.stopping (.inr past)
  unfold stepCaller at stepped
  cases place : s.caller k with
  | outside accepted =>
      rw [place] at inside
      cases inside
  | lock p =>
      rw [place] at stepped
      dsimp only at stepped
      split_ifs at stepped
      obtain rfl := Option.some.inj stepped
      exact ⟨work_caller_lt rfl rfl rfl rfl (by simp [place, CallerPc.work]), rfl⟩
  | submit p =>
      rw [place] at stepped
      dsimp only at stepped
      rw [if_pos on] at stepped
      obtain rfl := Option.some.inj stepped
      exact ⟨work_caller_lt rfl rfl rfl rfl (by simp [place, CallerPc.work]), rfl⟩
  | free p =>
      rw [place] at stepped
      obtain ⟨task, _, rfl⟩ := Option.map_eq_some_iff.mp stepped
      exact ⟨work_caller_lt rfl rfl rfl rfl (by simp [place, CallerPc.work]), rfl⟩

theorem stepOwner_work_lt [Fintype κ] (invariant : s.Invariant) (past : Past s.owner)
    {succeeds : Bool} (stepped : s.stepOwner succeeds = some s') :
    s'.work < s.work ∧ Past s'.owner := by
  have lower : ∀ pc, pc.work n < s.owner.work n → (s.ownerGoto pc).work < s.work := by
    intro pc less
    unfold work
    change 7 * s.waiting.length + _ + _ + pc.work n < _
    exact Nat.add_lt_add_left less _
  unfold stepOwner at stepped
  cases place : s.owner with
  | join j =>
      rw [place] at stepped
      dsimp only at stepped
      split_ifs at stepped with more joins unused
      · obtain rfl := Option.some.inj stepped
        refine ⟨lower _ ?_, trivial⟩
        rw [place]
        change 2 + (n - (j + 1)) < 2 + (n - j)
        omega
      · obtain rfl := Option.some.inj stepped
        refine ⟨lower _ ?_, trivial⟩
        rw [place]
        change 1 < 2 + (n - j)
        omega
  | drain cur =>
      rw [place] at stepped
      obtain ⟨rfl, _⟩ := invariant.sane.drained cur place
      obtain rfl := Option.some.inj stepped
      refine ⟨lower _ ?_, trivial⟩
      rw [place]
      exact Nat.one_pos
  | stopped =>
      rw [place] at stepped
      cases stepped
  | _ =>
      rw [place] at past
      cases past

/-! ## Who can go on -/

/-- The first task of the queue is in memory. -/
theorem Invariant.head_found (invariant : s.Invariant) {p : Ptr} (first : s.head = some p) :
    ∃ task, s.heap p = some task := by
  have chain := invariant.memory.chain
  have calls := invariant.memory.calls
  unfold queue at chain
  cases waits : s.waiting with
  | nil =>
      rw [waits] at chain
      have null : some s.head = some none := chain
      rw [first] at null
      cases null
  | cons one rest =>
      rw [waits] at chain
      have named : some s.head = some (some one.1) := chain.1
      obtain rfl : p = one.1 := by
        rw [first] at named
        simpa using named
      obtain ⟨next, found⟩ := calls one.1 one.2 (by rw [waits]; exact List.mem_cons_self)
      exact ⟨_, found⟩

/-- A worker that has not exited can go on, inside the lock or where nobody is. -/
theorem Invariant.worker_steps (invariant : s.Invariant) {i : Fin n}
    (free : (s.worker i).Inside ∨ s.lock = none) (present : s.worker i ≠ .absent)
    (alive : s.worker i ≠ .exited) : (s.stepWorker i).isSome := by
  unfold stepWorker
  cases place : s.worker i with
  | absent => exact absurd place present
  | exited => exact absurd place alive
  | lock =>
      rw [place] at free
      simp [free.resolve_left (fun inside => inside)]
  | relock =>
      rw [place] at free
      simp [free.resolve_left (fun inside => inside)]
  | check =>
      dsimp only
      split_ifs
      · rfl
      · rfl
  | take =>
      obtain ⟨p, first⟩ := Option.ne_none_iff_exists'.mp (invariant.sane.takes i place)
      obtain ⟨task, found⟩ := invariant.head_found first
      simp [first, found]
  | start p =>
      obtain ⟨task, found, _⟩ := invariant.memory.handed i p (by rw [place]; rfl)
      simp [found]
  | running p =>
      obtain ⟨task, found, _⟩ := invariant.memory.handed i p (by rw [place]; rfl)
      simp [found]
  | _ => rfl

/-- A submitting thread can go on inside the lock or where nobody is, once `stop` is set. -/
theorem Invariant.caller_steps [DecidableEq κ] (invariant : s.Invariant) {k : κ}
    (free : s.Inside (.caller k) ∨ s.lock = none) (on : s.stop = true)
    (inside : (s.caller k).isOutside = false) :
    (s.stepCaller k none true fun _ => true).isSome := by
  unfold stepCaller
  cases place : s.caller k with
  | outside accepted =>
      rw [place] at inside
      cases inside
  | lock p =>
      have nobody : s.lock = none := by
        rcases free with ⟨q, there⟩ | nobody
        · rw [place] at there
          cases there
        · exact nobody
      simp [nobody]
  | submit p => simp [on]
  | free p =>
      obtain ⟨_, _, call, found⟩ := invariant.memory.pending k p (by rw [place]; rfl)
      simp [found]

/-- The queue can be extended. -/
theorem Invariant.link_steps (invariant : s.Invariant) (p : Ptr) : (s.link p).isSome := by
  unfold link
  cases last : s.tail with
  | none => rfl
  | some t =>
      have member : t ∈ s.queue := List.mem_of_getLast? (invariant.memory.tail ▸ last)
      obtain ⟨⟨q, call⟩, inside, rfl⟩ := List.mem_map.mp member
      obtain ⟨next, found⟩ := invariant.memory.calls q call inside
      simp [found]

/-- A submitting thread comes to its unlock whatever `stop` is. -/
theorem Invariant.submit_inside [DecidableEq κ] (invariant : s.Invariant) {k : κ} {p : Ptr}
    (place : s.caller k = .submit p) :
    ∃ s', s.stepCaller k none true (fun _ => true) = some s' ∧ s'.owner = s.owner ∧
      (∀ i, (s'.worker i).inside = (s.worker i).inside) ∧
      ∃ pc : CallerPc, s'.caller = Function.update s.caller k pc ∧ pc.inside = 0 := by
  have pending := invariant.memory.pending k p (by rw [place]; rfl)
  obtain ⟨_, _, call, found⟩ := pending
  obtain ⟨s₁, linked⟩ := Option.isSome_iff_exists.mp (invariant.link_steps p)
  obtain ⟨whole, _⟩ := invariant.memory.link_spec linked
  have signalled : s.Signalled fun _ => true := fun ⟨i, sleeps⟩ => ⟨i, sleeps, rfl⟩
  unfold stepCaller
  simp only [place]
  by_cases on : s.stop = true
  · rw [if_pos on]
    exact ⟨_, rfl, rfl, fun _ => rfl, _, rfl, rfl⟩
  · rw [if_neg on, if_pos signalled, found, Option.bind_some, linked, Option.map_some]
    refine ⟨_, rfl, ?_, fun i => ?_, .outside true, ?_, rfl⟩
    · rw [whole]
      rfl
    · change (wake true (s.worker i)).inside = _
      unfold wake
      split_ifs with sleeps
      · rw [sleeps.2]
        rfl
      · rfl
    · rw [whole]
      rfl

/-- The owner can go on behind `stop` where all workers have exited and nobody submits. -/
theorem Invariant.owner_steps [Fintype κ] (invariant : s.Invariant) (past : Past s.owner)
    (gone : ∀ i, s.worker i = .exited) (unused : s.Unused) (unfinished : s.owner ≠ .stopped) :
    (s.stepOwner true).isSome := by
  have joins : ∀ j, s.Joinable j := fun _ _ => gone _
  unfold stepOwner
  cases place : s.owner with
  | join j =>
      dsimp only
      rw [if_pos (joins j), if_pos unused]
      split_ifs
      · rfl
      · rfl
  | drain cur =>
      obtain ⟨rfl, _⟩ := invariant.sane.drained cur place
      rfl
  | stopped => exact absurd place unfinished
  | _ =>
      rw [place] at past
      cases past

/-! ## What the pool owes its users -/

/-- What the pool owes its users in every state: what it takes and runs, and the queue. -/
structure Served (s : Pool κ α n) : Prop where
  in_order : s.history.taken <+: s.history.accepted
  once : s.history.accepted.Nodup ∧ s.history.started.Nodup ∧ s.history.returned.Nodup
  only_accepted : ∀ task ∈ s.history.started, task ∈ s.history.accepted
  only_started : ∀ task ∈ s.history.returned, task ∈ s.history.started
  never_refused : ∀ task ∈ s.history.refused, task.1 ∉ s.history.started.map Prod.fst
  all_returned : s.owner = .stopped → s.history.started.Perm s.history.accepted ∧
    s.history.returned.Perm s.history.accepted
  clean_up : ∀ cur, s.owner = .drain cur → cur = none
  chain : Path Cell.next s.cells .head s.queue
  tail : s.tail = s.queue.getLast?
  tail_none : s.tail = none ↔ s.head = none

/-- What the invariant of the pool and the counts of its tasks give. -/
theorem Invariant.served [DecidableEq α] (invariant : s.Invariant)
    (sound : Dispatch.Sound s.view) : s.Served where
  in_order := sound.order
  once := ⟨sound.distinct, sound.started_nodup, sound.returned_nodup⟩
  only_accepted := fun _ member => sound.order.subset (sound.started_subset member)
  only_started := fun _ member => sound.returned_subset member
  never_refused := fun task member ran => by
    obtain ⟨other, inside, same⟩ := List.mem_map.mp ran
    apply (invariant.memory.refused task.1 (List.mem_map_of_mem member)).2.1
    rw [← same]
    exact List.mem_map_of_mem (sound.order.subset (sound.started_subset inside))
  all_returned := fun ended => by
    refine sound.all_done (fun i => ?_) (invariant.all_taken ended)
    change hand s.heap (s.worker i) = .empty
    rw [invariant.sane.ended ended i]
    rfl
  clean_up := fun cur there => (invariant.sane.drained cur there).1
  chain := invariant.memory.chain
  tail := invariant.memory.tail
  tail_none := by rw [invariant.memory.tail, List.getLast?_eq_none_iff, invariant.queue_nil_iff]

/-- The queue and what it is made of. -/
structure SameQueue (s s' : Pool κ α n) : Prop where
  accepted : s'.history.accepted = s.history.accepted
  head : s'.head = s.head
  tail : s'.tail = s.tail
  queue : s'.queue = s.queue
  heap : ∀ p ∈ s.queue, s'.heap p = s.heap p

/-- A step of a submitting thread puts its task at the end of the queue and lets the
call return 0, or leaves the queue as it is and does not. -/
theorem stepCaller_queue [DecidableEq κ] (invariant : s.Invariant) {k : κ} {fn : Option α}
    {memory : Bool} {woken : Fin n → Bool} (stepped : s.stepCaller k fn memory woken = some s') :
    (s'.caller k = .outside true ∧ ∃ task, s.caller k = .submit task.1 ∧
      s'.history.accepted = s.history.accepted ++ [task] ∧ s'.queue = s.queue ++ [task.1]) ∨
    (s'.caller k ≠ .outside true ∧ SameQueue s s') := by
  unfold stepCaller at stepped
  cases place : s.caller k with
  | outside accepted =>
      rw [place] at stepped
      dsimp only at stepped
      split_ifs at stepped with usable
      split at stepped <;> obtain rfl := Option.some.inj stepped
      · refine .inr ⟨by simp [callerGoto], rfl, rfl, rfl, rfl, fun p member => ?_⟩
        refine Function.update_of_ne ?_ _ _
        exact (invariant.memory.bounded p (invariant.memory.queued member).1).ne
      · exact .inr ⟨by simp [callerGoto], rfl, rfl, rfl, rfl, fun _ _ => rfl⟩
  | lock p =>
      rw [place] at stepped
      dsimp only at stepped
      split_ifs at stepped
      obtain rfl := Option.some.inj stepped
      exact .inr ⟨by simp [callerGoto], rfl, rfl, rfl, rfl, fun _ _ => rfl⟩
  | submit p =>
      rw [place] at stepped
      dsimp only at stepped
      split_ifs at stepped with stops signalled
      · obtain rfl := Option.some.inj stepped
        exact .inr ⟨by simp [callerGoto], rfl, rfl, rfl, rfl, fun _ _ => rfl⟩
      · obtain ⟨task, found, stepped⟩ := Option.bind_eq_some_iff.mp stepped
        obtain ⟨s₁, linked, rfl⟩ := Option.map_eq_some_iff.mp stepped
        refine .inl ⟨by simp [callerGoto], (p, task.call), rfl, rfl, ?_⟩
        exact queue_of_accept invariant.memory.order rfl rfl
  | free p =>
      rw [place] at stepped
      obtain ⟨task, found, rfl⟩ := Option.map_eq_some_iff.mp stepped
      refine .inr ⟨by simp [callerGoto], rfl, rfl, rfl, rfl, fun q member => ?_⟩
      refine Function.update_of_ne ?_ _ _
      rintro rfl
      exact (invariant.memory.queued member).2.2 k (by rw [place]; rfl)

/-! ## Behind `stop` -/

variable [DecidableEq κ] [Fintype κ]

/-- **Every step lowers the work that is left**, once `stop` is set, unless it begins
another submission. -/
theorem step_work_lt (invariant : s.Invariant) (past : Past s.owner) {label : Label κ α n}
    (closed : ¬ s.Opens label) (stepped : s.step label = some s') :
    s'.work < s.work ∧ Past s'.owner := by
  cases label with
  | worker i =>
      obtain ⟨less, same⟩ := stepWorker_work_lt invariant (invariant.sane.stopping (.inr past))
        (fun waits => (invariant.sane.waits i waits).2 past)
        (fun sleeps => invariant.sane.sleeps i sleeps past) stepped
      exact ⟨less, same ▸ past⟩
  | owner succeeds => exact stepOwner_work_lt invariant past stepped
  | caller k fn memory woken =>
      have inside : (s.caller k).isOutside = false := by
        simpa [Opens] using closed
      obtain ⟨less, same⟩ := stepCaller_work_lt invariant past inside stepped
      exact ⟨less, same ▸ past⟩

/-- **Somebody can go on** until `threadPoolStop` returns, once `stop` is set. -/
theorem exists_step (invariant : s.Invariant) (past : Past s.owner)
    (unfinished : s.owner ≠ .stopped) :
    ∃ label s', ¬ s.Opens label ∧ s.step label = some s' := by
  have on := invariant.sane.stopping (.inr past)
  have present : ∀ i, s.worker i ≠ .absent := by
    intro i absent
    have begun : s.owner ≠ .failed := by
      intro same
      rw [same] at past
      cases past
    have beyond := (invariant.sane.created begun i).mp absent
    have all : s.owner.created n = n := by
      revert past
      cases s.owner <;> simp [Past, OwnerPc.created]
    rw [all] at beyond
    exact absurd i.isLt (not_lt.mpr beyond)
  have worker : ∀ i, ((s.worker i).Inside ∨ s.lock = none) → s.worker i ≠ .exited →
      ∃ label s', ¬ s.Opens label ∧ s.step label = some s' := by
    intro i free alive
    obtain ⟨s', stepped⟩ :=
      Option.isSome_iff_exists.mp (invariant.worker_steps free (present i) alive)
    exact ⟨.worker i, s', not_false, stepped⟩
  have caller : ∀ k, (s.Inside (.caller k) ∨ s.lock = none) → (s.caller k).isOutside = false →
      ∃ label s', ¬ s.Opens label ∧ s.step label = some s' := by
    intro k free inside
    obtain ⟨s', stepped⟩ := Option.isSome_iff_exists.mp (invariant.caller_steps free on inside)
    exact ⟨.caller k none true fun _ => true, s', by simp [Opens, inside], stepped⟩
  cases held : s.lock with
  | some agent =>
      have inside := (invariant.owned agent).mp held
      cases agent with
      | worker i =>
          apply worker i (.inl inside)
          rintro gone
          unfold Inside at inside
          dsimp only at inside
          rw [gone] at inside
          cases inside
      | owner =>
          have place : s.owner = .setStop := inside
          rw [place] at past
          cases past
      | caller k =>
          apply caller k (.inl inside)
          obtain ⟨p, place⟩ := inside
          rw [place]
          rfl
  | none =>
      by_cases waits : ∃ i, s.worker i ≠ .exited
      · obtain ⟨i, alive⟩ := waits
        exact worker i (.inr held) alive
      by_cases submits : ∃ k, (s.caller k).isOutside = false
      · obtain ⟨k, inside⟩ := submits
        exact caller k (.inr held) inside
      -- All workers have exited and nobody submits, so the joins and the clean-up go on.
      push Not at waits submits
      have unused : s.Unused := fun k => by simpa using submits k
      obtain ⟨s', stepped⟩ :=
        Option.isSome_iff_exists.mp (invariant.owner_steps past waits unused unfinished)
      exact ⟨.owner true, s', not_false, stepped⟩

/-- Once `stop` is set, `threadPoolStop` can return. -/
theorem exists_stopped_of_past (invariant : s.Invariant) (past : Past s.owner) :
    ∃ s', Transition.Reaches step s s' ∧ s'.owner = .stopped := by
  obtain ⟨final, reached, _, ended⟩ := Transition.exists_reaches_of_measure
    (fun s : Pool κ α n => s.Invariant ∧ Past s.owner) (fun s => s.owner = .stopped)
    work (fun state ⟨here, within⟩ unfinished => by
      obtain ⟨label, next, closed, stepped⟩ := exists_step here within unfinished
      obtain ⟨less, still⟩ := step_work_lt here within closed stepped
      exact ⟨label, next, stepped, ⟨(step_refined here stepped).invariant, still⟩, less⟩)
    ⟨invariant, past⟩
  exact ⟨final, reached, ended⟩

/-! ## Before `stop` is set -/

/-- The steps to the next unlock. -/
def insideWork (s : Pool κ α n) : ℕ :=
  Tally.tally WorkerPc.inside s.worker + Tally.tally CallerPc.inside s.caller

/-- Inside the lock a worker comes closer to the unlock. -/
theorem Turn.inside_lt {stop : Bool} {head : Option Ptr} {before after : WorkerPc}
    (turn : Turn stop head before after) (inside : before.Inside) :
    after.inside < before.inside := by
  cases turn with
  | waits => decide
  | goes => decide
  | sleeps => decide
  | exits => decide
  | stays => decide
  | takes p => exact Nat.one_pos
  | _ => cases inside

/-- Whoever holds the lock comes closer to the unlock. -/
theorem exists_step_inside (invariant : s.Invariant) (waits : s.owner = .lockStop)
    (held : s.lock ≠ none) : ∃ label s', s.step label = some s' ∧
      (s'.Invariant ∧ s'.owner = .lockStop) ∧ s'.insideWork < s.insideWork := by
  obtain ⟨agent, held⟩ := Option.ne_none_iff_exists'.mp held
  have inside := (invariant.owned agent).mp held
  cases agent with
  | worker i =>
      have there : (s.worker i).Inside := inside
      obtain ⟨s', stepped⟩ := Option.isSome_iff_exists.mp (invariant.worker_steps (.inl there)
        (by rintro same; rw [same] at there; cases there)
        (by rintro same; rw [same] at there; cases there))
      obtain ⟨pc, turned⟩ := stepWorker_turned invariant stepped
      refine ⟨.worker i, s', stepped,
        ⟨(stepWorker_refined invariant stepped).invariant, turned.owner.trans waits⟩, ?_⟩
      have turn := Tally.tally_update WorkerPc.inside s.worker i pc
      have less := turned.turn.inside_lt there
      unfold insideWork
      rw [turned.worker, turned.caller]
      omega
  | owner =>
      have place : s.owner = .setStop := inside
      rw [place] at waits
      cases waits
  | caller k =>
      obtain ⟨p, place⟩ := inside
      obtain ⟨s', stepped, owner, worker, pc, caller, out⟩ := invariant.submit_inside place
      refine ⟨.caller k none true fun _ => true, s', stepped,
        ⟨(stepCaller_refined invariant stepped).invariant, owner.trans waits⟩, ?_⟩
      have turn := Tally.tally_update CallerPc.inside s.caller k pc
      have same : Tally.tally WorkerPc.inside s'.worker = Tally.tally WorkerPc.inside s.worker :=
        Finset.sum_congr rfl fun i _ => worker i
      have one : (s.caller k).inside = 1 := by rw [place]; rfl
      unfold insideWork
      rw [caller, same]
      omega

/-- Whoever holds the lock gives it up. -/
theorem exists_freed (invariant : s.Invariant) (waits : s.owner = .lockStop) :
    ∃ s', Transition.Reaches step s s' ∧ s'.Invariant ∧ s'.owner = .lockStop ∧ s'.lock = none := by
  obtain ⟨final, reached, ⟨kept, still⟩, free⟩ := Transition.exists_reaches_of_measure
    (fun s : Pool κ α n => s.Invariant ∧ s.owner = .lockStop) (fun s => s.lock = none)
    insideWork
    (fun s ⟨invariant, waits⟩ held => exists_step_inside invariant waits held) ⟨invariant, waits⟩
  exact ⟨final, reached, kept, still, free⟩

/-- **`threadPoolStop` returns**: from wherever it has been called a run leads to its end. -/
theorem exists_stopped (invariant : s.Invariant)
    (called : s.owner = .lockStop ∨ s.owner = .setStop ∨ Past s.owner) :
    ∃ s', Transition.Reaches step s s' ∧ s'.owner = .stopped := by
  have behind : ∀ {s : Pool κ α n}, s.Invariant → s.owner = .setStop →
      ∃ s', Transition.Reaches step s s' ∧ s'.owner = .stopped := by
    intro s invariant there
    obtain ⟨next, stepped, past⟩ :
        ∃ next, s.step (.owner true) = some next ∧ Past next.owner := by
      simp only [step, stepOwner, there]
      exact ⟨_, rfl, trivial⟩
    obtain ⟨final, reached, ended⟩ :=
      exists_stopped_of_past (step_refined invariant stepped).invariant past
    exact ⟨final, (Transition.Reaches.next .start _ stepped).trans reached, ended⟩
  rcases called with waits | there | past
  · obtain ⟨free, reached, kept, still, nobody⟩ := exists_freed invariant waits
    obtain ⟨next, stepped, there⟩ :
        ∃ next, free.step (.owner true) = some next ∧ next.owner = .setStop := by
      simp only [step, stepOwner, still, nobody, if_pos]
      exact ⟨_, rfl, rfl⟩
    obtain ⟨final, later, ended⟩ := behind (step_refined kept stepped).invariant there
    exact ⟨final, (reached.next _ stepped).trans later, ended⟩
  · exact behind invariant there
  · exact exists_stopped_of_past invariant past

/-! ## Every accepted task runs once -/

/-- **The pool runs every accepted task once.** In every state of every run the tasks
are served as they should be; a step of a submitting thread that does not make its call
return 0 leaves the queue as it is; and `threadPoolStop` returns: some run leads there
from any state in which it has been called, and once it has set `stop` every step lowers
the work left, other than one that begins another submission. -/
theorem every_task_once (reached : Transition.Reaches step (start κ α n) s) :
    s.Served ∧
    (∀ k fn memory woken s', s.stepCaller k fn memory woken = some s' →
      (s'.caller k = .outside true ∧ ∃ task, s.caller k = .submit task.1 ∧
        s'.history.accepted = s.history.accepted ++ [task] ∧ s'.queue = s.queue ++ [task.1]) ∨
      (s'.caller k ≠ .outside true ∧ SameQueue s s')) ∧
    (s.owner = .lockStop ∨ s.owner = .setStop ∨ Past s.owner →
      ∃ s', Transition.Reaches step s s' ∧ s'.owner = .stopped) ∧
    (Past s.owner → ∀ label s', ¬ s.Opens label → s.step label = some s' → s'.work < s.work) := by
  let decidable : DecidableEq α := Classical.decEq α
  obtain ⟨invariant, sound⟩ := reached_invariant reached
  refine ⟨invariant.served sound, fun k fn memory woken s' stepped => ?_,
    exists_stopped invariant, fun past label s' closed stepped => ?_⟩
  · exact stepCaller_queue invariant stepped
  · exact (step_work_lt invariant past closed stepped).1

/-- The theorem where a worker sleeps and is signalled for the first task, the other one
takes the second, and a third submission comes too late. -/
theorem every_task_once_run : ∃ s : Pool (Fin 1) ℕ 2,
    Transition.Reaches step (start (Fin 1) ℕ 2) s ∧ s.Served ∧ s.owner = .stopped ∧
      s.history.returned = [(1, 8), (0, 7)] ∧ s.history.refused = [(2, 9)] := by
  have ran : ((Transition.run step (start (Fin 1) ℕ 2)
      (List.replicate 4 (.owner true) ++ List.replicate 3 (.worker 0) ++
        List.replicate 3 (.caller 0 (some 7) true fun _ => true) ++ List.replicate 4 (.worker 0) ++
        List.replicate 3 (.caller 0 (some 8) true fun _ => true) ++ List.replicate 7 (.worker 1) ++
        [.caller 0 (some 9) true fun _ => true] ++ List.replicate 3 (.owner true) ++
        List.replicate 3 (.caller 0 (some 9) true fun _ => true) ++
        List.replicate 6 (.worker 0) ++ List.replicate 3 (.worker 1) ++
        List.replicate 4 (.owner true))).map fun s =>
          (s.owner, s.history.returned, s.history.refused)) =
      some (.stopped, [(1, 8), (0, 7)], [(2, 9)]) := by
    decide +kernel
  obtain ⟨s, run, seen⟩ := Option.map_eq_some_iff.mp ran
  simp only [Prod.mk.injEq] at seen
  have reached := Transition.Reaches.of_run run .start
  exact ⟨s, reached, (every_task_once reached).1, seen⟩

end Pool

end OperationSystems.ThreadPool
