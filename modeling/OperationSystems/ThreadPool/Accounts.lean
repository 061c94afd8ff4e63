import OperationSystems.ThreadPool.Turns

/-!
# Where the tasks in memory are

Every `Task` that `threadPoolSubmit` allocates is in one place until it is freed: in the
hand of the thread that submits it, in the queue, or in the hand of the worker that has
taken it. So nothing of the pool's is left in memory when it is gone.
-/

namespace OperationSystems.ThreadPool

open Dispatch

namespace Pool

variable {κ α : Type*} {n : ℕ} {s s' : Pool κ α n}

/-- Somebody has the task, or it waits. -/
def Placed (s : Pool κ α n) (p : Ptr) : Prop :=
  p ∈ s.queue ∨ (∃ i, (s.worker i).task = some p) ∨ ∃ k, (s.caller k).task = some p

/-- Every task in memory has its place. -/
def Accounted (s : Pool κ α n) : Prop := ∀ p, s.heap p ≠ none → s.Placed p

theorem Accounted.start : (start κ α n).Accounted := fun _ there => absurd rfl there

/-- A step that leaves the tasks where they are. -/
theorem Accounted.keep (accounted : s.Accounted) (heap : s'.heap = s.heap)
    (queue : s'.queue = s.queue) (workers : ∀ i, (s'.worker i).task = (s.worker i).task)
    (callers : ∀ k, (s'.caller k).task = (s.caller k).task) : s'.Accounted := by
  intro p there
  rw [heap] at there
  unfold Placed
  simp only [queue, workers, callers]
  exact accounted p there

/-- What is left when a task has been freed has its place, and is another task. -/
theorem Accounted.remaining (accounted : s.Accounted) {p q : Ptr}
    (there : Function.update s.heap p none q ≠ none) : q ≠ p ∧ s.Placed q := by
  have other : q ≠ p := by
    rintro rfl
    exact there (Function.update_self _ _ _)
  refine ⟨other, accounted q fun freed => ?_⟩
  exact there ((Function.update_of_ne other _ _).trans freed)

/-- A worker takes the first task, or frees the one in its hand, or keeps what it has. -/
theorem stepWorker_accounted (invariant : s.Invariant) (accounted : s.Accounted) {i : Fin n}
    (stepped : s.stepWorker i = some s') : s'.Accounted := by
  have quiet : ∀ {pc : WorkerPc} {lock : Option (Agent κ n)}, pc.task = (s.worker i).task →
      Accounted { s.goto i pc with lock := lock } := fun same =>
    accounted.keep rfl rfl (task_update same) fun _ => rfl
  obtain ⟨_, turned⟩ := stepWorker_turned invariant stepped
  unfold stepWorker at stepped
  cases place : s.worker i with
  | absent =>
      rw [place] at stepped
      cases stepped
  | exited =>
      rw [place] at stepped
      cases stepped
  | lock =>
      rw [place] at stepped
      dsimp only at stepped
      split_ifs at stepped
      obtain rfl := Option.some.inj stepped
      exact quiet (by rw [place]; rfl)
  | relock =>
      rw [place] at stepped
      dsimp only at stepped
      split_ifs at stepped
      obtain rfl := Option.some.inj stepped
      exact quiet (by rw [place]; rfl)
  | test =>
      rw [place] at stepped
      obtain rfl := Option.some.inj stepped
      refine accounted.keep rfl rfl (task_update ?_) fun _ => rfl
      rw [place]
      split_ifs <;> rfl
  | wait =>
      rw [place] at stepped
      obtain rfl := Option.some.inj stepped
      exact quiet (by rw [place]; rfl)
  | asleep =>
      rw [place] at stepped
      obtain rfl := Option.some.inj stepped
      exact accounted.keep rfl rfl (task_update (by rw [place]; rfl)) fun _ => rfl
  | check =>
      rw [place] at stepped
      dsimp only at stepped
      split_ifs at stepped
      · obtain rfl := Option.some.inj stepped
        exact quiet (by rw [place]; rfl)
      · obtain rfl := Option.some.inj stepped
        exact accounted.keep rfl rfl (task_update (by rw [place]; rfl)) fun _ => rfl
  | take =>
      rw [place] at stepped
      cases first : s.head with
      | none =>
          rw [first] at stepped
          cases stepped
      | some p =>
          rw [first] at stepped
          obtain ⟨task, found, rfl⟩ := Option.map_eq_some_iff.mp stepped
          obtain ⟨rest, waits, _⟩ := invariant.memory.head_waiting first found
          obtain ⟨one, takes⟩ := turned.taking place
          obtain ⟨rfl, _⟩ := List.cons.inj (waits.symm.trans takes)
          have nodes : s.queue = p :: queue _ := congrArg (List.map Prod.fst) takes
          intro q there
          rcases accounted q there with member | ⟨j, has⟩ | has
          · rw [nodes] at member
            rcases List.mem_cons.mp member with rfl | later
            · exact .inr (.inl ⟨i, by simp [goto, WorkerPc.task]⟩)
            · exact .inl later
          · have other : j ≠ i := by
              rintro rfl
              rw [place] at has
              cases has
            exact .inr (.inl ⟨j, by simpa [goto, other] using has⟩)
          · exact .inr (.inr has)
  | start p =>
      rw [place] at stepped
      obtain ⟨task, _, rfl⟩ := Option.map_eq_some_iff.mp stepped
      exact accounted.keep rfl rfl (task_update (by rw [place]; rfl)) fun _ => rfl
  | running p =>
      rw [place] at stepped
      obtain ⟨task, _, rfl⟩ := Option.map_eq_some_iff.mp stepped
      exact accounted.keep rfl rfl (task_update (by rw [place]; rfl)) fun _ => rfl
  | free p =>
      rw [place] at stepped
      obtain rfl := Option.some.inj stepped
      intro q there
      obtain ⟨other, placed⟩ := accounted.remaining there
      rcases placed with member | ⟨j, has⟩ | has
      · exact .inl member
      · have apart : j ≠ i := by
          rintro rfl
          rw [place] at has
          exact other (Option.some.inj has).symm
        exact .inr (.inl ⟨j, by simpa [goto, apart] using has⟩)
      · exact .inr (.inr has)

/-- A submitting thread allocates a task, queues the one in its hand or frees it. -/
theorem stepCaller_accounted [DecidableEq κ] (invariant : s.Invariant) (accounted : s.Accounted)
    {k : κ} {fn : Option α} {memory : Bool} {woken : Fin n → Bool}
    (stepped : s.stepCaller k fn memory woken = some s') : s'.Accounted := by
  -- what the others have in hand stays there
  have others : ∀ {pc : CallerPc} {q : Ptr}, (s.caller k).task ≠ some q →
      (∃ k', (s.caller k').task = some q) →
        ∃ k', (Function.update s.caller k pc k').task = some q := by
    rintro pc q out ⟨k', has⟩
    have apart : k' ≠ k := by
      rintro rfl
      exact out has
    exact ⟨k', by rw [Function.update_of_ne apart]; exact has⟩
  unfold stepCaller at stepped
  cases place : s.caller k with
  | outside accepted =>
      rw [place] at stepped
      dsimp only at stepped
      split_ifs at stepped
      split at stepped <;> obtain rfl := Option.some.inj stepped
      · intro q there
        by_cases new : q = s.fresh
        · subst new
          exact .inr (.inr ⟨k, by simp [callerGoto, CallerPc.task]⟩)
        · have before : s.heap q ≠ none := fun freed =>
            there ((Function.update_of_ne new _ _).trans freed)
          rcases accounted q before with member | has | has
          · exact .inl member
          · exact .inr (.inl has)
          · exact .inr (.inr (others (by rw [place]; simp [CallerPc.task]) has))
      · exact accounted.keep rfl rfl (fun _ => rfl) (caller_task_update (by rw [place]; rfl))
  | lock p =>
      rw [place] at stepped
      dsimp only at stepped
      split_ifs at stepped
      obtain rfl := Option.some.inj stepped
      exact accounted.keep rfl rfl (fun _ => rfl) (caller_task_update (by rw [place]; rfl))
  | submit p =>
      rw [place] at stepped
      dsimp only at stepped
      split_ifs at stepped
      · obtain rfl := Option.some.inj stepped
        exact accounted.keep rfl rfl (fun _ => rfl) (caller_task_update (by rw [place]; rfl))
      · obtain ⟨task, found, stepped⟩ := Option.bind_eq_some_iff.mp stepped
        obtain ⟨s₁, linked, made⟩ := Option.map_eq_some_iff.mp stepped
        obtain ⟨frame, _, _, calls, _⟩ := invariant.memory.link_spec linked
        have accepted : s'.history.accepted = s.history.accepted ++ [(p, task.call)] := by
          rw [← made]
        have nodes := queue_of_accept invariant.memory.order accepted (by rw [← made])
        subst made
        intro q there
        have before : s.heap q ≠ none := by
          intro freed
          have same := calls q
          rw [freed] at same
          exact there (Option.map_eq_none_iff.mp same)
        have callers : s₁.caller = s.caller := by rw [frame]
        rcases accounted q before with member | ⟨j, has⟩ | has
        · exact .inl (nodes ▸ List.mem_append_left _ member)
        · exact .inr (.inl ⟨j, (task_wake _ _).trans has⟩)
        · by_cases own : q = p
          · exact .inl (nodes ▸ List.mem_append_right _ (List.mem_singleton.mpr own))
          · refine .inr (.inr ?_)
            change ∃ k', (Function.update s₁.caller k _ k').task = some q
            rw [callers]
            refine others ?_ has
            rw [place]
            exact fun same => own (Option.some.inj same).symm
  | free p =>
      rw [place] at stepped
      obtain ⟨task, _, rfl⟩ := Option.map_eq_some_iff.mp stepped
      intro q there
      obtain ⟨other, placed⟩ := accounted.remaining there
      rcases placed with member | has | has
      · exact .inl member
      · exact .inr (.inl has)
      · refine .inr (.inr (others ?_ has))
        rw [place]
        exact fun same => other (Option.some.inj same).symm

/-- The owner allocates nothing, and finds nothing to free. -/
theorem stepOwner_accounted [Fintype κ] (invariant : s.Invariant) (accounted : s.Accounted)
    {succeeds : Bool} (stepped : s.stepOwner succeeds = some s') : s'.Accounted := by
  unfold stepOwner at stepped
  cases place : s.owner with
  | create i =>
      rw [place] at stepped
      dsimp only at stepped
      split_ifs at stepped with inside <;> obtain rfl := Option.some.inj stepped
      · have absent : s.worker ⟨i, inside⟩ = .absent :=
          (invariant.sane.created (by simp [place]) _).mpr (by simp [place, OwnerPc.created])
        exact accounted.keep rfl rfl (task_update (by rw [absent]; rfl)) fun _ => rfl
      · exact accounted.keep rfl rfl (fun _ => rfl) fun _ => rfl
      · exact accounted.keep rfl rfl (fun _ => rfl) fun _ => rfl
  | broadcast i =>
      rw [place] at stepped
      obtain rfl := Option.some.inj stepped
      exact accounted.keep rfl rfl (fun _ => task_wake _ _) fun _ => rfl
  | setStop =>
      rw [place] at stepped
      obtain rfl := Option.some.inj stepped
      exact accounted.keep rfl rfl (fun _ => task_wake _ _) fun _ => rfl
  | joinFailed i j =>
      rw [place] at stepped
      dsimp only at stepped
      split_ifs at stepped <;> obtain rfl := Option.some.inj stepped
      · exact accounted.keep rfl rfl (fun _ => rfl) fun _ => rfl
      · exact accounted.keep rfl rfl (fun _ => rfl) fun _ => rfl
  | lockStop =>
      rw [place] at stepped
      dsimp only at stepped
      split_ifs at stepped
      obtain rfl := Option.some.inj stepped
      exact accounted.keep rfl rfl (fun _ => rfl) fun _ => rfl
  | join j =>
      rw [place] at stepped
      dsimp only at stepped
      split_ifs at stepped <;> obtain rfl := Option.some.inj stepped
      · exact accounted.keep rfl rfl (fun _ => rfl) fun _ => rfl
      · exact accounted.keep rfl rfl (fun _ => rfl) fun _ => rfl
  | drain cur =>
      rw [place] at stepped
      obtain ⟨rfl, _⟩ := invariant.sane.drained cur place
      obtain rfl := Option.some.inj stepped
      exact accounted.keep rfl rfl (fun _ => rfl) fun _ => rfl
  | failed =>
      rw [place] at stepped
      cases stepped
  | stopped =>
      rw [place] at stepped
      cases stepped
  | _ =>
      rw [place] at stepped
      obtain rfl := Option.some.inj stepped
      exact accounted.keep rfl rfl (fun _ => rfl) fun _ => rfl

/-! ## Runs -/

/-- Where a task can be: in the queue, or in the hand of a worker or of a submitting thread. -/
inductive Holder (κ : Type*) (n : ℕ)
  | queue
  | worker (i : Fin n)
  | caller (k : κ)

/-- The task is there. -/
def Holds (s : Pool κ α n) (p : Ptr) : Holder κ n → Prop
  | .queue => p ∈ s.queue
  | .worker i => (s.worker i).task = some p
  | .caller k => (s.caller k).task = some p

/-- A task is placed where somebody holds it. -/
theorem placed_iff {p : Ptr} : s.Placed p ↔ ∃ holder, s.Holds p holder := by
  constructor
  · rintro (member | ⟨i, has⟩ | ⟨k, has⟩)
    · exact ⟨.queue, member⟩
    · exact ⟨.worker i, has⟩
    · exact ⟨.caller k, has⟩
  · rintro ⟨_ | i | k, holds⟩
    · exact .inl holds
    · exact .inr (.inl ⟨i, holds⟩)
    · exact .inr (.inr ⟨k, holds⟩)

/-- What is in the queue or in a hand has not been freed. -/
theorem Memory.found (memory : s.Memory) {p : Ptr} {holder : Holder κ n}
    (holds : s.Holds p holder) : s.heap p ≠ none := by
  cases holder with
  | queue =>
      obtain ⟨⟨q, call⟩, member, rfl⟩ := List.mem_map.mp holds
      obtain ⟨next, found⟩ := memory.calls q call member
      simp [found]
  | worker i =>
      obtain ⟨task, found, _⟩ := memory.handed i p holds
      simp [found]
  | caller k =>
      obtain ⟨_, _, call, found⟩ := memory.pending k p holds
      simp [found]

/-- A task is in one place only. -/
theorem Memory.unique (memory : s.Memory) {p : Ptr} {one two : Holder κ n}
    (first : s.Holds p one) (second : s.Holds p two) : one = two := by
  have accepted : ∀ {i : Fin n}, (s.worker i).task = some p →
      p ∈ s.history.accepted.map Prod.fst := fun has => by
    obtain ⟨task, _, taken⟩ := memory.handed _ p has
    exact List.mem_map_of_mem (memory.order.subset taken)
  cases one with
  | queue =>
      obtain ⟨_, workers, callers⟩ := memory.queued first
      cases two with
      | queue => rfl
      | worker i => exact absurd second (workers i)
      | caller k => exact absurd second (callers k)
  | worker i =>
      cases two with
      | queue => exact absurd first ((memory.queued second).2.1 i)
      | worker j => rw [memory.handed_alone i j p first second]
      | caller k => exact absurd (accepted first) (memory.pending k p second).2.1
  | caller k =>
      cases two with
      | queue => exact absurd first ((memory.queued second).2.2 k)
      | worker j => exact absurd (accepted second) (memory.pending k p first).2.1
      | caller k' => rw [memory.pending_alone k k' p first second]

section Runs

variable [DecidableEq κ] [Fintype κ]

/-- **The step lemma.** Every task in memory keeps a place. -/
theorem step_accounted (invariant : s.Invariant) (accounted : s.Accounted) {label : Label κ α n}
    (stepped : s.step label = some s') : s'.Accounted := by
  cases label with
  | worker i => exact stepWorker_accounted invariant accounted stepped
  | owner succeeds => exact stepOwner_accounted invariant accounted stepped
  | caller k fn memory woken => exact stepCaller_accounted invariant accounted stepped

theorem reached_accounted [DecidableEq α]
    (reached : Transition.Reaches step (start κ α n) s) : s.Invariant ∧ s.Accounted := by
  refine reached.invariant (motive := fun s : Pool κ α n => s.Invariant ∧ s.Accounted)
    ⟨.start, .start⟩ ?_
  rintro v label next ⟨invariant, accounted⟩ _ stepped
  exact ⟨(step_refined invariant stepped).invariant, step_accounted invariant accounted stepped⟩

omit [DecidableEq κ] [Fintype κ] in
/-- Where the pool is gone nothing is left in memory. -/
theorem Accounted.at_end (accounted : s.Accounted) (invariant : s.Invariant)
    (gone : s.owner = .stopped ∨ s.owner = .failed) (p : Ptr) : s.heap p = none := by
  obtain ⟨empty, idle⟩ := invariant.at_end gone
  by_contra there
  rcases accounted p there with member | ⟨i, has⟩ | ⟨k, has⟩
  · unfold queue at member
    rw [empty] at member
    cases member
  · rw [idle i] at has
    cases has
  · have inside : (s.caller k).isOutside = false := by
      cases place : s.caller k with
      | outside accepted =>
          rw [place] at has
          cases has
      | _ => rfl
    have usable := invariant.sane.unused k inside
    rcases gone with gone | gone <;> rw [gone] at usable <;> cases usable

/-- **Every task is in one place until it is freed.** In every run of the pool, whatever the
workers, the owner and the submitting threads do, a `Task` is in memory exactly if it waits in
the queue or is in the hand of one thread, and it is in one of these places only. When
`threadPoolStop` has returned, or `threadPoolCreate` has failed, none is in memory. -/
theorem task_in_one_place [DecidableEq α] (reached : Transition.Reaches step (start κ α n) s) :
    (∀ p, s.heap p ≠ none → ∃! holder, s.Holds p holder) ∧
      (∀ p holder, s.Holds p holder → s.heap p ≠ none) ∧ s.queue.Nodup ∧
      (s.owner = .stopped ∨ s.owner = .failed → ∀ p, s.heap p = none) := by
  obtain ⟨invariant, accounted⟩ := reached_accounted reached
  refine ⟨fun p there => ?_, fun p holder holds => invariant.memory.found holds,
    invariant.memory.chain.nodup, accounted.at_end invariant⟩
  obtain ⟨holder, holds⟩ := placed_iff.mp (accounted p there)
  exact ⟨holder, holds, fun other also => invariant.memory.unique also holds⟩

/-- The theorem where one task is run, a second one waits and a third one is on its way. -/
theorem task_in_one_place_run : ∃ s : Pool (Fin 1) ℕ 1,
    Transition.Reaches step (start (Fin 1) ℕ 1) s ∧ s.fresh = 3 ∧ s.worker 0 = .running 0 ∧
      s.queue = [1] ∧ s.caller 0 = .lock 2 ∧ ∃! holder, s.Holds 2 holder := by
  have ran : ((Transition.run step (start (Fin 1) ℕ 1)
      (List.replicate 3 (.owner true) ++
        List.replicate 6 (.caller 0 (some 5) true fun _ => true) ++ List.replicate 5 (.worker 0) ++
        [.caller 0 (some 6) true fun _ => true])).map fun s =>
          (s.fresh, s.worker 0, s.queue, s.caller 0)) = some (3, .running 0, [1], .lock 2) := by
    decide +kernel
  obtain ⟨s, run, seen⟩ := Option.map_eq_some_iff.mp ran
  simp only [Prod.mk.injEq] at seen
  obtain ⟨fresh, runs, waits, submits⟩ := seen
  have reached := Transition.Reaches.of_run run .start
  have known : s.heap 2 ≠ none := (task_in_one_place reached).2.1 2 (.caller 0) (by
    change (s.caller 0).task = some 2
    rw [submits]
    rfl)
  exact ⟨s, reached, fresh, runs, waits, submits, (task_in_one_place reached).1 2 known⟩

end Runs

end Pool

end OperationSystems.ThreadPool
