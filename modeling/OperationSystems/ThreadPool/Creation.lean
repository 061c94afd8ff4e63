import OperationSystems.ThreadPool.Drain

/-!
# When the creation of a pool fails

The error path of `threadPoolCreate` sets `stop` and wakes the sleepers without the
lock. A worker that has found neither `stop` nor a task and has not called
`pthread_cond_wait` yet is not woken and sleeps behind the broadcast. Where the
broadcast finds no worker there, none sleeps afterwards and all joins can return.
-/

namespace OperationSystems.ThreadPool

namespace Pool

variable {κ α : Type*} {n : ℕ} {s s' : Pool κ α n}

/-- The error path of `threadPoolCreate` has issued its broadcast. -/
def Issued : OwnerPc → Prop
  | .joinFailed _ _ => True
  | .failed => True
  | _ => False

/-- If the step is the broadcast of the error path, no worker stands between its test and
`pthread_cond_wait`. -/
def Unwatched (s : Pool κ α n) : Label κ α n → Prop
  | .owner _ => ∀ i, s.owner = .broadcast i → ∀ j, s.worker j ≠ .wait
  | _ => True

/-- Behind the broadcast all workers are on their way out. -/
structure Leaving (s : Pool κ α n) : Prop where
  awake : ∀ i j, s.owner = .joinFailed i j →
    ∀ k, s.worker k ≠ .wait ∧ s.worker k ≠ .asleep
  joined : ∀ i j, s.owner = .joinFailed i j → ∀ k : Fin n, k < min i j → s.worker k = .exited
  gone : s.owner = .failed → ∀ k, s.worker k = .absent ∨ s.worker k = .exited

theorem Leaving.of_other (joins : ∀ i j, s.owner ≠ .joinFailed i j) (failed : s.owner ≠ .failed) :
    s.Leaving where
  awake := fun i j there => absurd there (joins i j)
  joined := fun i j there => absurd there (joins i j)
  gone := fun there => absurd there failed

/-- Once `stop` is set a worker goes to sleep only if it has tested it before. -/
theorem Turn.leaving {stop : Bool} {head : Option Ptr} {before after : WorkerPc}
    (turn : Turn stop head before after) (on : stop = true) (waits : before ≠ .wait) :
    after ≠ .wait ∧ after ≠ .asleep ∧ before ≠ .absent ∧ before ≠ .exited := by
  cases turn with
  | waits going =>
      rw [on] at going
      cases going
  | sleeps => exact absurd rfl waits
  | _ => simp

/-- A step of a worker keeps all workers on their way out. -/
theorem stepWorker_leaving (invariant : s.Invariant) (leaving : s.Leaving) {i : Fin n}
    (stepped : s.stepWorker i = some s') : s'.Leaving := by
  obtain ⟨pc, turned⟩ := stepWorker_turned invariant stepped
  have on : ∀ a b, s.owner = .joinFailed a b → s.stop = true := fun a b there =>
    invariant.sane.stopping (.inl (by rw [there]; trivial))
  have turn : ∀ a b, s.owner = .joinFailed a b → pc ≠ .wait ∧ pc ≠ .asleep ∧
      s.worker i ≠ .absent ∧ s.worker i ≠ .exited := fun a b there =>
    turned.turn.leaving (on a b there) (leaving.awake a b there i).1
  constructor
  · intro a b there k
    rw [turned.owner] at there
    rw [turned.worker]
    by_cases self : k = i
    · subst self
      rw [Function.update_self]
      exact ⟨(turn a b there).1, (turn a b there).2.1⟩
    · rw [Function.update_of_ne self]
      exact leaving.awake a b there k
  · intro a b there k below
    rw [turned.owner] at there
    have gone := leaving.joined a b there k below
    rw [turned.worker, Function.update_of_ne]
    · exact gone
    · rintro rfl
      exact (turn a b there).2.2.2 gone
  · intro there k
    rw [turned.owner] at there
    rcases leaving.gone there i with absent | exited
    · have moved := turned.turn
      rw [absent] at moved
      cases moved
    · have moved := turned.turn
      rw [exited] at moved
      cases moved

theorem stepOwner_leaving [Fintype κ] (invariant : s.Invariant) (leaving : s.Leaving)
    {succeeds : Bool} (unwatched : s.Unwatched (.owner succeeds))
    (stepped : s.stepOwner succeeds = some s') : s'.Leaving := by
  have created := invariant.sane.created
  unfold stepOwner at stepped
  cases place : s.owner with
  | begin =>
      rw [place] at stepped
      obtain rfl := Option.some.inj stepped
      split_ifs
      · exact .of_other (by simp [ownerGoto]) (by simp [ownerGoto])
      · refine ⟨by simp [ownerGoto], by simp [ownerGoto], fun _ k => .inl ?_⟩
        exact (created (by simp [place]) k).mpr (by simp [place, OwnerPc.created])
  | create i =>
      rw [place] at stepped
      dsimp only at stepped
      split_ifs at stepped <;> obtain rfl := Option.some.inj stepped
      · exact .of_other (by simp [ownerGoto]) (by simp [ownerGoto])
      · exact .of_other (by simp [ownerGoto]) (by simp [ownerGoto])
      · exact .of_other (by simp [ownerGoto]) (by simp [ownerGoto])
  | storeStop i =>
      rw [place] at stepped
      obtain rfl := Option.some.inj stepped
      exact .of_other (by simp [ownerGoto]) (by simp [ownerGoto])
  | broadcast i =>
      rw [place] at stepped
      obtain rfl := Option.some.inj stepped
      refine ⟨fun _ _ _ k => ⟨fun waits => ?_, fun sleeps => ?_⟩, fun a b there k below => ?_,
        by simp [ownerGoto]⟩
      · exact unwatched i place k (eq_of_wake waits (by simp))
      · have asleep := eq_of_wake sleeps (by simp)
        change wake true (s.worker k) = _ at sleeps
        simp [asleep, wake] at sleeps
      · obtain ⟨rfl, rfl⟩ := OwnerPc.joinFailed.inj there
        exact absurd below (by simp)
  | joinFailed i j =>
      rw [place] at stepped
      dsimp only at stepped
      have gone := leaving.joined i j place
      split_ifs at stepped with more joins <;> obtain rfl := Option.some.inj stepped
      · refine ⟨fun a b there k => leaving.awake i j place k, fun a b there k below => ?_,
          by simp [ownerGoto]⟩
        obtain ⟨rfl, rfl⟩ := OwnerPc.joinFailed.inj there
        rcases Nat.lt_succ_iff_lt_or_eq.mp (lt_min_iff.mp below).2 with earlier | this
        · exact gone k (lt_min (lt_min_iff.mp below).1 earlier)
        · have inside : j < n := this ▸ k.isLt
          exact (congrArg s.worker (Fin.ext this)).trans (joins inside)
      · refine ⟨by simp [ownerGoto], by simp [ownerGoto], fun _ k => ?_⟩
        by_cases below : (k : ℕ) < i
        · exact .inr (gone k (lt_min below (lt_of_lt_of_le below (not_lt.mp more))))
        · refine .inl ((created (by simp [place]) k).mpr ?_)
          rw [place]
          exact not_lt.mp below
  | failed =>
      rw [place] at stepped
      cases stepped
  | serving =>
      rw [place] at stepped
      obtain rfl := Option.some.inj stepped
      exact .of_other (by simp [ownerGoto]) (by simp [ownerGoto])
  | lockStop =>
      rw [place] at stepped
      dsimp only at stepped
      split_ifs at stepped
      obtain rfl := Option.some.inj stepped
      exact .of_other (by simp [ownerGoto]) (by simp [ownerGoto])
  | setStop =>
      rw [place] at stepped
      obtain rfl := Option.some.inj stepped
      exact .of_other (by simp [ownerGoto]) (by simp [ownerGoto])
  | join j =>
      rw [place] at stepped
      dsimp only at stepped
      split_ifs at stepped <;> obtain rfl := Option.some.inj stepped
      · exact .of_other (by simp [ownerGoto]) (by simp [ownerGoto])
      · exact .of_other (by simp [ownerGoto]) (by simp [ownerGoto])
  | drain cur =>
      rw [place] at stepped
      obtain ⟨rfl, _⟩ := invariant.sane.drained cur place
      obtain rfl := Option.some.inj stepped
      exact .of_other (by simp [ownerGoto]) (by simp [ownerGoto])
  | stopped =>
      rw [place] at stepped
      cases stepped

/-! ## Runs -/

variable [DecidableEq κ] [Fintype κ]

/-- **The step lemma.** No step of an unwatched run brings a worker back to sleep. -/
theorem step_leaving (invariant : s.Invariant) (leaving : s.Leaving) {label : Label κ α n}
    (unwatched : s.Unwatched label) (stepped : s.step label = some s') : s'.Leaving := by
  cases label with
  | worker i => exact stepWorker_leaving invariant leaving stepped
  | owner succeeds => exact stepOwner_leaving invariant leaving unwatched stepped
  | caller k fn memory woken =>
      obtain ⟨usable, same⟩ := stepCaller_usable invariant stepped
      rw [← same] at usable
      exact .of_other (fun i j there => by rw [there] at usable; cases usable)
        fun there => by rw [there] at usable; cases usable

theorem reached_leaving (reached : Transition.ReachesBy step Unwatched (start κ α n) s) :
    s.Invariant ∧ s.Leaving := by
  refine reached.invariant (motive := fun s : Pool κ α n => s.Invariant ∧ s.Leaving)
    ⟨Invariant.start, .of_other (by simp [start]) (by simp [start])⟩ ?_
  rintro s label next ⟨invariant, leaving⟩ unwatched stepped
  exact ⟨(step_refined invariant stepped).invariant,
    step_leaving invariant leaving unwatched stepped⟩

omit [DecidableEq κ] in
/-- A worker that has not exited can go on behind the broadcast, and has less work left. -/
theorem exists_worker_step_leaving (invariant : s.Invariant) (leaving : s.Leaving)
    {i j : ℕ} (place : s.owner = .joinFailed i j) {k : Fin n}
    (free : (s.worker k).Inside ∨ s.lock = none) (present : s.worker k ≠ .absent)
    (alive : s.worker k ≠ .exited) : ∃ s', s.stepWorker k = some s' ∧
      (s'.Invariant ∧ s'.Leaving ∧ Issued s'.owner) ∧ s'.work < s.work := by
  have on := invariant.sane.stopping (.inl (by rw [place]; trivial))
  obtain ⟨s', stepped⟩ := Option.isSome_iff_exists.mp (invariant.worker_steps free present alive)
  obtain ⟨waits, sleeps⟩ := leaving.awake i j place k
  obtain ⟨less, same⟩ := stepWorker_work_lt invariant on waits sleeps stepped
  refine ⟨s', stepped, ⟨(stepWorker_refined invariant stepped).invariant,
    stepWorker_leaving invariant leaving stepped, ?_⟩, less⟩
  rw [same, place]
  trivial

omit [DecidableEq κ] in
/-- Where all its workers have exited, the error path goes on to its end. -/
theorem exists_owner_step_leaving (invariant : s.Invariant) (leaving : s.Leaving) {i j : ℕ}
    (place : s.owner = .joinFailed i j) (gone : ∀ k, s.worker k = .absent ∨ s.worker k = .exited) :
    ∃ s', s.stepOwner true = some s' ∧
      (s'.Invariant ∧ s'.Leaving ∧ Issued s'.owner) ∧ s'.work < s.work := by
  have joins : j < i → s.Joinable j := fun more inside => by
    refine (gone ⟨j, inside⟩).resolve_left fun absent => ?_
    have beyond := (invariant.sane.created (by simp [place]) _).mp absent
    rw [place] at beyond
    exact absurd more (not_lt.mpr beyond)
  have lower : ∀ pc, pc.work n < s.owner.work n → (s.ownerGoto pc).work < s.work :=
    fun pc less => Nat.add_lt_add_left less _
  have unwatched : s.Unwatched (.owner true) := fun a there => by
    rw [place] at there
    cases there
  by_cases more : j < i
  · have stepped : s.stepOwner true = some (s.ownerGoto (.joinFailed i (j + 1))) := by
      simp only [stepOwner, place, if_pos more, if_pos (joins more)]
    refine ⟨_, stepped, ⟨(stepOwner_refined invariant stepped).invariant,
      stepOwner_leaving invariant leaving unwatched stepped, trivial⟩, lower _ ?_⟩
    rw [place]
    change 1 + (i - (j + 1)) < 1 + (i - j)
    omega
  · have stepped : s.stepOwner true = some (s.ownerGoto .failed) := by
      simp only [stepOwner, place, if_neg more]
    refine ⟨_, stepped, ⟨(stepOwner_refined invariant stepped).invariant,
      stepOwner_leaving invariant leaving unwatched stepped, trivial⟩, lower _ ?_⟩
    rw [place]
    exact Nat.add_pos_left Nat.one_pos _

/-- Behind the broadcast somebody can go on until `threadPoolCreate` returns. -/
theorem exists_step_leaving (invariant : s.Invariant) (leaving : s.Leaving) {i j : ℕ}
    (place : s.owner = .joinFailed i j) : ∃ label s', s.step label = some s' ∧
      (s'.Invariant ∧ s'.Leaving ∧ Issued s'.owner) ∧ s'.work < s.work := by
  cases held : s.lock with
  | some agent =>
      have inside := (invariant.owned agent).mp held
      cases agent with
      | worker k =>
          have there : (s.worker k).Inside := inside
          obtain ⟨s', moved⟩ := exists_worker_step_leaving invariant leaving place (.inl there)
            (fun same => by rw [same] at there; cases there)
            (fun same => by rw [same] at there; cases there)
          exact ⟨.worker k, s', moved⟩
      | owner =>
          have setting : s.owner = .setStop := inside
          rw [place] at setting
          cases setting
      | caller k =>
          obtain ⟨p, submits⟩ := inside
          have usable := invariant.sane.unused k (by rw [submits]; rfl)
          rw [place] at usable
          cases usable
  | none =>
      by_cases gone : ∀ k, s.worker k = .absent ∨ s.worker k = .exited
      · obtain ⟨s', moved⟩ := exists_owner_step_leaving invariant leaving place gone
        exact ⟨.owner true, s', moved⟩
      · push Not at gone
        obtain ⟨k, present, alive⟩ := gone
        obtain ⟨s', moved⟩ :=
          exists_worker_step_leaving invariant leaving place (.inr held) present alive
        exact ⟨.worker k, s', moved⟩

/-- Behind the broadcast all joins can return. -/
theorem exists_failed (invariant : s.Invariant) (leaving : s.Leaving) (issued : Issued s.owner) :
    ∃ s', Transition.Reaches step s s' ∧ s'.owner = .failed := by
  obtain ⟨final, reached, _, ended⟩ := Transition.exists_reaches_of_measure
    (fun s : Pool κ α n => s.Invariant ∧ s.Leaving ∧ Issued s.owner)
    (fun s => s.owner = .failed) work (fun state ⟨here, leaves, behind⟩ unfinished => by
      cases place : state.owner with
      | joinFailed i j => exact exists_step_leaving here leaves place
      | failed => exact absurd place unfinished
      | _ =>
          rw [place] at behind
          cases behind)
    ⟨invariant, leaving, issued⟩
  exact ⟨final, reached, ended⟩

/-- The broadcast of the error path has been issued, and a worker sleeps that was not
woken. -/
def Hangs (s : Pool κ α n) : Prop := Issued s.owner ∧ ∃ i, s.worker i = .asleep

omit [DecidableEq κ] [Fintype κ] in
/-- Where all workers leave, the join behind a failure does not hang. -/
theorem Leaving.not_hangs (leaving : s.Leaving) : ¬ s.Hangs := by
  rintro ⟨issued, k, sleeps⟩
  cases place : s.owner with
  | joinFailed i j => exact (leaving.awake i j place k).2 sleeps
  | failed => rcases leaving.gone place k with gone | gone <;> rw [gone] at sleeps <;> cases sleeps
  | _ =>
      rw [place] at issued
      cases issued

/-- After a broadcast that finds a worker between its test and the wait, that worker
goes to sleep. -/
theorem exists_hangs {label : Label κ α n} (watched : ¬ s.Unwatched label)
    (stepped : s.step label = some s') : ∃ s'', Transition.Reaches step s' s'' ∧ s''.Hangs := by
  cases label with
  | owner succeeds =>
      unfold Unwatched at watched
      push Not at watched
      obtain ⟨i, place, j, waits⟩ := watched
      have still : Issued s'.owner ∧ s'.worker j = .wait := by
        simp only [step, stepOwner, place] at stepped
        obtain rfl := Option.some.inj stepped
        exact ⟨trivial, (wake_of_ne (by simp [waits])).trans waits⟩
      have sleeps : s'.step (.worker j) = some { s'.goto j .asleep with lock := none } := by
        simp only [step, stepWorker, still.2]
      exact ⟨_, .next .start _ sleeps, still.1, j, by simp [goto]⟩
  | worker i => exact absurd trivial watched
  | caller k fn memory woken => exact absurd trivial watched

/-- **When a failed creation hangs.** In the runs in which the broadcast of the error
path finds no worker between its test and the wait, no worker sleeps behind it and all
joins can return; and after a broadcast of any run that finds one, the run can go on to
a worker that sleeps behind the broadcast. -/
theorem hangs_iff_watched :
    (∀ s, Transition.ReachesBy step Unwatched (start κ α n) s → ¬ s.Hangs ∧
      (Issued s.owner → ∃ s', Transition.Reaches step s s' ∧ s'.owner = .failed)) ∧
    (∀ s label s', Transition.Reaches step (start κ α n) s → ¬ s.Unwatched label →
      s.step label = some s' → ∃ s'', Transition.Reaches step s' s'' ∧ s''.Hangs) := by
  refine ⟨fun s reached => ?_, fun s label s' _ watched stepped => exists_hangs watched stepped⟩
  obtain ⟨invariant, leaving⟩ := reached_leaving reached
  exact ⟨leaving.not_hangs, exists_failed invariant leaving⟩

/-- Of two workers the first one is created and the second one is not. The first one
has found neither `stop` nor a task. -/
def firstTested : List (Label (Fin 1) ℕ 2) :=
  List.replicate 2 (.owner true) ++ List.replicate 2 (.worker 0)

/-- The error path up to its broadcast. -/
def failsAndStops : List (Label (Fin 1) ℕ 2) := [.owner false, .owner true]

/-- The theorem where the worker sleeps before the error path begins, and where it goes
to sleep behind the broadcast. -/
theorem hangs_iff_watched_run :
    (∃ s : Pool (Fin 1) ℕ 2, Transition.ReachesBy step Unwatched (start (Fin 1) ℕ 2) s ∧
      s.owner = .joinFailed 1 0 ∧ ¬ s.Hangs) ∧
    (∃ s : Pool (Fin 1) ℕ 2, Transition.Reaches step (start (Fin 1) ℕ 2) s ∧ s.Hangs) := by
  have woken : ((Transition.run (Transition.guarded step fun s label =>
      match label with
      | .owner _ => decide (∀ j, s.worker j ≠ .wait)
      | _ => true) (start (Fin 1) ℕ 2)
      (firstTested ++ [.worker 0] ++ failsAndStops ++ [.owner true])).map fun s => s.owner) =
      some (.joinFailed 1 0) := by
    decide +kernel
  obtain ⟨s, ran, place⟩ := Option.map_eq_some_iff.mp woken
  have reached : Transition.ReachesBy step Unwatched (start (Fin 1) ℕ 2) s :=
    .of_guarded ran (fun v label passed => by
      cases label with
      | owner succeeds => exact fun _ _ => of_decide_eq_true passed
      | worker i => trivial
      | caller k fn memory woken => trivial) .start
  refine ⟨⟨s, reached, place, (hangs_iff_watched.1 s reached).1⟩, ?_⟩
  have watched : ((Transition.run step (start (Fin 1) ℕ 2) (firstTested ++ failsAndStops)).bind
      fun s => (s.step (.owner true)).map fun _ => (s.owner, s.worker 0)) =
      some (.broadcast 1, .wait) := by
    decide +kernel
  obtain ⟨v, went, rest⟩ := Option.bind_eq_some_iff.mp watched
  obtain ⟨next, stepped, places⟩ := Option.map_eq_some_iff.mp rest
  obtain ⟨there, waits⟩ := Prod.mk.inj places
  have before : Transition.Reaches step (start (Fin 1) ℕ 2) v := .of_run went .start
  obtain ⟨final, later, hangs⟩ := hangs_iff_watched.2 v (.owner true) next before
    (fun clear => clear 1 there 0 waits) stepped
  exact ⟨final, .trans (before.next _ stepped) later, hangs⟩

/-- A worker that sleeps behind the broadcast, with the creator about to join it. -/
theorem worker_sleeps_behind_broadcast :
    ∃ s : Pool (Fin 1) ℕ 2, Transition.Reaches step (start (Fin 1) ℕ 2) s ∧
      s.owner = .joinFailed 1 0 ∧ s.worker 0 = .asleep := by
  have left : ((Transition.run step (start (Fin 1) ℕ 2)
      (firstTested ++ failsAndStops ++ [.owner true, .worker 0])).map fun s =>
        (s.owner, s.worker 0)) = some (.joinFailed 1 0, .asleep) := by
    decide +kernel
  obtain ⟨s, ran, places⟩ := Option.map_eq_some_iff.mp left
  obtain ⟨there, sleeps⟩ := Prod.mk.inj places
  exact ⟨s, .of_run ran .start, there, sleeps⟩

end Pool

end OperationSystems.ThreadPool
