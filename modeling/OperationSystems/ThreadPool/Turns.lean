import OperationSystems.ThreadPool.Steps

/-!
# What a step does

The inversion lemmas of the pool: where the step of a worker leads and what it leaves
alone, how a call of `threadPoolSubmit` goes on, and what the owner never touches.
-/

namespace OperationSystems.ThreadPool

open Dispatch

namespace Pool

variable {κ α : Type*} {n : ℕ} {s s' : Pool κ α n}

/-- Where a worker's step leads, by what it finds in `stop` and `head`. -/
inductive Turn (stop : Bool) (head : Option Ptr) : WorkerPc → WorkerPc → Prop
  | lock : Turn stop head .lock .test
  | relock : Turn stop head .relock .test
  | waits : stop = false → head = none → Turn stop head .test .wait
  | goes : ¬ (stop = false ∧ head = none) → Turn stop head .test .check
  | sleeps : Turn stop head .wait .asleep
  | wakes : Turn stop head .asleep .relock
  | exits : stop = true → head = none → Turn stop head .check .exited
  | stays : ¬ (stop = true ∧ head = none) → Turn stop head .check .take
  | takes (p : Ptr) : head = some p → Turn stop head .take (.start p)
  | starts (p : Ptr) : Turn stop head (.start p) (.running p)
  | returns (p : Ptr) : Turn stop head (.running p) (.free p)
  | frees (p : Ptr) : Turn stop head (.free p) .lock

/-- What a worker's step does to the rest: nothing, unless it takes a task. -/
structure Turned (s s' : Pool κ α n) (i : Fin n) (pc : WorkerPc) : Prop where
  turn : Turn s.stop s.head (s.worker i) pc
  worker : s'.worker = Function.update s.worker i pc
  owner : s'.owner = s.owner
  caller : s'.caller = s.caller
  heap : ∀ p, (s.worker i).task ≠ some p → s'.heap p = s.heap p
  waiting : s.worker i ≠ .take → s'.waiting = s.waiting
  taking : s.worker i = .take → ∃ one, s.waiting = one :: s'.waiting

/-- **The inversion lemma of `workerLoop`.** -/
theorem stepWorker_turned (invariant : s.Invariant) {i : Fin n}
    (stepped : s.stepWorker i = some s') : ∃ pc, Turned s s' i pc := by
  unfold stepWorker at stepped
  cases place : s.worker i with
  | absent =>
      rw [place] at stepped
      cases stepped
  | lock =>
      rw [place] at stepped
      dsimp only at stepped
      split_ifs at stepped
      obtain rfl := Option.some.inj stepped
      exact ⟨_, place ▸ .lock, rfl, rfl, rfl, fun _ _ => rfl, fun _ => rfl, by simp [place]⟩
  | test =>
      rw [place] at stepped
      obtain rfl := Option.some.inj stepped
      split_ifs with must
      · exact ⟨_, place ▸ .waits must.1 must.2, rfl, rfl, rfl, fun _ _ => rfl, fun _ => rfl,
          by simp [place]⟩
      · exact ⟨_, place ▸ .goes must, rfl, rfl, rfl, fun _ _ => rfl, fun _ => rfl, by simp [place]⟩
  | wait =>
      rw [place] at stepped
      obtain rfl := Option.some.inj stepped
      exact ⟨_, place ▸ .sleeps, rfl, rfl, rfl, fun _ _ => rfl, fun _ => rfl, by simp [place]⟩
  | asleep =>
      rw [place] at stepped
      obtain rfl := Option.some.inj stepped
      exact ⟨_, place ▸ .wakes, rfl, rfl, rfl, fun _ _ => rfl, fun _ => rfl, by simp [place]⟩
  | relock =>
      rw [place] at stepped
      dsimp only at stepped
      split_ifs at stepped
      obtain rfl := Option.some.inj stepped
      exact ⟨_, place ▸ .relock, rfl, rfl, rfl, fun _ _ => rfl, fun _ => rfl, by simp [place]⟩
  | check =>
      rw [place] at stepped
      dsimp only at stepped
      split_ifs at stepped with ends <;> obtain rfl := Option.some.inj stepped
      · exact ⟨_, place ▸ .exits ends.1 ends.2, rfl, rfl, rfl, fun _ _ => rfl, fun _ => rfl,
          by simp [place]⟩
      · exact ⟨_, place ▸ .stays ends, rfl, rfl, rfl, fun _ _ => rfl, fun _ => rfl, by simp [place]⟩
  | take =>
      rw [place] at stepped
      cases first : s.head with
      | none =>
          rw [first] at stepped
          cases stepped
      | some p =>
          rw [first] at stepped
          obtain ⟨task, found, rfl⟩ := Option.map_eq_some_iff.mp stepped
          obtain ⟨rest, _, split⟩ := invariant.memory.head_waiting first found
          refine ⟨_, place ▸ .takes p first, rfl, rfl, rfl, fun _ _ => rfl,
            fun other => absurd place other, fun _ => ⟨(p, task.call), ?_⟩⟩
          exact waiting_eq_of_take split rfl rfl
  | start p =>
      rw [place] at stepped
      obtain ⟨task, _, rfl⟩ := Option.map_eq_some_iff.mp stepped
      exact ⟨_, place ▸ .starts p, rfl, rfl, rfl, fun _ _ => rfl, fun _ => rfl, by simp [place]⟩
  | running p =>
      rw [place] at stepped
      obtain ⟨task, _, rfl⟩ := Option.map_eq_some_iff.mp stepped
      exact ⟨_, place ▸ .returns p, rfl, rfl, rfl, fun _ _ => rfl, fun _ => rfl, by simp [place]⟩
  | free p =>
      rw [place] at stepped
      obtain rfl := Option.some.inj stepped
      refine ⟨_, place ▸ .frees p, rfl, rfl, rfl, fun q other => ?_, fun _ => rfl, by simp [place]⟩
      refine Function.update_of_ne ?_ _ _
      rintro rfl
      exact other (by rw [place]; rfl)
  | exited =>
      rw [place] at stepped
      cases stepped

/-- Who submits uses a pool, and the owner does not notice. -/
theorem stepCaller_usable [DecidableEq κ] (invariant : s.Invariant) {k : κ} {fn : Option α}
    {memory : Bool} {woken : Fin n → Bool} (stepped : s.stepCaller k fn memory woken = some s') :
    Usable s.owner ∧ s'.owner = s.owner := by
  have inside : (s.caller k).isOutside = false → Usable s.owner := invariant.sane.unused k
  unfold stepCaller at stepped
  cases place : s.caller k with
  | outside accepted =>
      rw [place] at stepped
      dsimp only at stepped
      split_ifs at stepped with usable
      split at stepped <;> obtain rfl := Option.some.inj stepped
      · exact ⟨usable, rfl⟩
      · exact ⟨usable, rfl⟩
  | lock p =>
      rw [place] at stepped
      dsimp only at stepped
      split_ifs at stepped
      obtain rfl := Option.some.inj stepped
      exact ⟨inside (by rw [place]; rfl), rfl⟩
  | submit p =>
      rw [place] at stepped
      dsimp only at stepped
      split_ifs at stepped with stops signalled
      · obtain rfl := Option.some.inj stepped
        exact ⟨inside (by rw [place]; rfl), rfl⟩
      · obtain ⟨task, _, stepped⟩ := Option.bind_eq_some_iff.mp stepped
        obtain ⟨s₁, linked, rfl⟩ := Option.map_eq_some_iff.mp stepped
        obtain ⟨whole, _⟩ := invariant.memory.link_spec linked
        exact ⟨inside (by rw [place]; rfl), by rw [whole]; rfl⟩
  | free p =>
      rw [place] at stepped
      obtain ⟨task, _, rfl⟩ := Option.map_eq_some_iff.mp stepped
      exact ⟨inside (by rw [place]; rfl), rfl⟩

/-- A submitting thread's call returns 0 with its task queued, returns -1, or goes on
with the task it has allocated. -/
theorem stepCaller_cases [DecidableEq κ] {k : κ} {fn : Option α}
    {memory : Bool} {woken : Fin n → Bool} (stepped : s.stepCaller k fn memory woken = some s') :
    (s'.caller k = .outside true ∧ ∃ p task, s.caller k = .submit p ∧ s.heap p = some task ∧
      s.callerAct k = some (.accept (p, task.call))) ∨
    (s'.caller k = .outside false ∧ s.callerAct k = none) ∨
    ((s'.caller k).isOutside = false ∧ s.callerAct k = none ∧ ∃ p, (s'.caller k).task = some p ∧
      ((∃ call, fn = some call ∧ s'.heap p = some ⟨call, none⟩) ∨
        ((s.caller k).task = some p ∧ s'.heap p = s.heap p))) := by
  unfold stepCaller at stepped
  unfold callerAct
  cases place : s.caller k with
  | outside accepted =>
      rw [place] at stepped
      dsimp only at stepped
      split_ifs at stepped with usable
      split at stepped <;> obtain rfl := Option.some.inj stepped
      · refine .inr (.inr ⟨by simp [callerGoto, CallerPc.isOutside], rfl, s.fresh, ?_, .inl ?_⟩)
        · simp [callerGoto, CallerPc.task]
        · exact ⟨_, rfl, Function.update_self _ _ _⟩
      · exact .inr (.inl ⟨by simp [callerGoto], rfl⟩)
  | lock p =>
      rw [place] at stepped
      dsimp only at stepped
      split_ifs at stepped
      obtain rfl := Option.some.inj stepped
      exact .inr (.inr ⟨by simp [callerGoto, CallerPc.isOutside], rfl, p,
        by simp [callerGoto, CallerPc.task], .inr ⟨rfl, rfl⟩⟩)
  | submit p =>
      rw [place] at stepped
      dsimp only at stepped
      split_ifs at stepped with stops signalled
      · obtain rfl := Option.some.inj stepped
        exact .inr (.inr ⟨by simp [callerGoto, CallerPc.isOutside], if_pos stops, p,
          by simp [callerGoto, CallerPc.task], .inr ⟨rfl, rfl⟩⟩)
      · obtain ⟨task, found, stepped⟩ := Option.bind_eq_some_iff.mp stepped
        obtain ⟨s₁, _, rfl⟩ := Option.map_eq_some_iff.mp stepped
        refine .inl ⟨by simp [callerGoto], p, task, rfl, found, ?_⟩
        dsimp only
        rw [if_neg stops, found]
        rfl
  | free p =>
      rw [place] at stepped
      obtain ⟨task, _, rfl⟩ := Option.map_eq_some_iff.mp stepped
      exact .inr (.inl ⟨by simp [callerGoto], rfl⟩)

/-- Being woken neither starts nor ends a task. -/
theorem wake_running {woken : Bool} {pc : WorkerPc} {p : Ptr} :
    wake woken pc = .running p ↔ pc = .running p := by
  refine ⟨fun now => eq_of_wake now (by simp), fun now => ?_⟩
  rw [wake_of_ne (by simp [now]), now]

/-- A submitting thread neither starts nor ends a task. -/
theorem stepCaller_running [DecidableEq κ] {k : κ} {fn : Option α}
    {memory : Bool} {woken : Fin n → Bool} (stepped : s.stepCaller k fn memory woken = some s')
    (i : Fin n) (p : Ptr) : s'.worker i = .running p ↔ s.worker i = .running p := by
  unfold stepCaller at stepped
  cases place : s.caller k with
  | outside accepted =>
      rw [place] at stepped
      dsimp only at stepped
      split_ifs at stepped
      split at stepped <;> obtain rfl := Option.some.inj stepped
      · exact Iff.rfl
      · exact Iff.rfl
  | lock p =>
      rw [place] at stepped
      dsimp only at stepped
      split_ifs at stepped
      obtain rfl := Option.some.inj stepped
      exact Iff.rfl
  | submit p =>
      rw [place] at stepped
      dsimp only at stepped
      split_ifs at stepped
      · obtain rfl := Option.some.inj stepped
        exact Iff.rfl
      · obtain ⟨task, _, stepped⟩ := Option.bind_eq_some_iff.mp stepped
        obtain ⟨s₁, _, rfl⟩ := Option.map_eq_some_iff.mp stepped
        exact wake_running
  | free p =>
      rw [place] at stepped
      obtain ⟨task, _, rfl⟩ := Option.map_eq_some_iff.mp stepped
      exact Iff.rfl

/-- The owner neither submits nor starts or ends a task. -/
theorem stepOwner_frame [Fintype κ] (invariant : s.Invariant) {succeeds : Bool}
    (stepped : s.stepOwner succeeds = some s') : s'.caller = s.caller ∧
      ∀ i p, s'.worker i = .running p ↔ s.worker i = .running p := by
  unfold stepOwner at stepped
  cases place : s.owner with
  | create i =>
      rw [place] at stepped
      dsimp only at stepped
      split_ifs at stepped with inside <;> obtain rfl := Option.some.inj stepped
      · have absent : s.worker ⟨i, inside⟩ = .absent :=
          (invariant.sane.created (by simp [place]) _).mpr (by simp [place, OwnerPc.created])
        refine ⟨rfl, fun j p => ?_⟩
        change Function.update s.worker ⟨i, inside⟩ .lock j = _ ↔ _
        by_cases self : j = ⟨i, inside⟩
        · subst self
          simp [absent]
        · rw [Function.update_of_ne self]
      · exact ⟨rfl, fun _ _ => Iff.rfl⟩
      · exact ⟨rfl, fun _ _ => Iff.rfl⟩
  | broadcast i =>
      rw [place] at stepped
      obtain rfl := Option.some.inj stepped
      exact ⟨rfl, fun _ _ => wake_running⟩
  | setStop =>
      rw [place] at stepped
      obtain rfl := Option.some.inj stepped
      exact ⟨rfl, fun _ _ => wake_running⟩
  | joinFailed i j =>
      rw [place] at stepped
      dsimp only at stepped
      split_ifs at stepped <;> obtain rfl := Option.some.inj stepped
      · exact ⟨rfl, fun _ _ => Iff.rfl⟩
      · exact ⟨rfl, fun _ _ => Iff.rfl⟩
  | lockStop =>
      rw [place] at stepped
      dsimp only at stepped
      split_ifs at stepped
      obtain rfl := Option.some.inj stepped
      exact ⟨rfl, fun _ _ => Iff.rfl⟩
  | join j =>
      rw [place] at stepped
      dsimp only at stepped
      split_ifs at stepped <;> obtain rfl := Option.some.inj stepped
      · exact ⟨rfl, fun _ _ => Iff.rfl⟩
      · exact ⟨rfl, fun _ _ => Iff.rfl⟩
  | drain cur =>
      rw [place] at stepped
      obtain ⟨rfl, _⟩ := invariant.sane.drained cur place
      obtain rfl := Option.some.inj stepped
      exact ⟨rfl, fun _ _ => Iff.rfl⟩
  | failed =>
      rw [place] at stepped
      cases stepped
  | stopped =>
      rw [place] at stepped
      cases stepped
  | _ =>
      rw [place] at stepped
      obtain rfl := Option.some.inj stepped
      exact ⟨rfl, fun _ _ => Iff.rfl⟩

/-! ## The end -/

/-- When all workers have exited, all that was accepted was taken. -/
theorem Invariant.all_taken (invariant : s.Invariant) (ended : s.owner = .stopped) :
    s.history.taken = s.history.accepted := by
  have some := invariant.sane.size (by simp [ended]) (by simp [ended])
  have empty := (invariant.sane.exited ⟨0, some⟩ (invariant.sane.ended ended _)).2
  have nothing : s.waiting = [] := List.map_eq_nil_iff.mp (invariant.queue_nil_iff.mpr empty)
  have split := List.prefix_iff_eq_append.mp invariant.memory.order
  change s.history.taken ++ s.waiting = _ at split
  rwa [nothing, List.append_nil] at split

/-- Where the pool is gone no task waits and no worker has one. -/
theorem Invariant.at_end (invariant : s.Invariant)
    (ended : s.owner = .stopped ∨ s.owner = .failed) :
    s.waiting = [] ∧ ∀ i, (s.worker i).task = none := by
  rcases ended with ended | ended
  · refine ⟨?_, fun i => by rw [invariant.sane.ended ended i]; rfl⟩
    rw [waiting, invariant.all_taken ended, List.drop_length]
  · have nothing := invariant.sane.early (by rw [ended]; trivial)
    refine ⟨by rw [waiting, nothing, List.drop_nil], fun i => ?_⟩
    by_contra some
    obtain ⟨p, has⟩ := Option.ne_none_iff_exists'.mp some
    obtain ⟨_, _, taken⟩ := invariant.memory.handed i p has
    have accepted := invariant.memory.order.subset taken
    rw [nothing] at accepted
    cases accepted

end Pool

end OperationSystems.ThreadPool
