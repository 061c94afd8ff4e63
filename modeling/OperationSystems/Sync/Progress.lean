import OperationSystems.Sync.Sleepers

/-!
# Every worker can finish

A lock whose calls come to their return once the word is 0, and whose unlock calls always
do, lets all its workers finish from every state that can be reached. The spinlock is such a
lock. So is the mutex where every sleeper is covered by a wake-up; a sleeper that an unlock
has forgotten is not, and only goes on if `futex_wait` returns for nothing.
-/

namespace OperationSystems.Sync

open LockedWord

variable {ι LockPoint UnlockPoint : Type} {code : LockCode LockPoint UnlockPoint}

/-- The points of a lock call that can be come to, ranked by the steps to the return while the
word is 0, and those of an unlock call, ranked by the steps to its return. -/
structure LockCode.Grants (code : LockCode LockPoint UnlockPoint) where
  good : LockPoint → Prop
  rank : LockPoint → ℕ
  exit : UnlockPoint → ℕ
  most : ℕ
  rank_le : ∀ point, rank point ≤ most
  exit_le : ∀ point, exit point ≤ most
  enters : good code.enter
  resumes : good code.resume
  keeps : ∀ state point next, good point → (code.lock state point).2 = some next → good next
  grants : ∀ point next, good point → (code.lock 0 point).2 = some next → rank next < rank point
  leaves : ∀ state point next, (code.unlock state point).2 = some next → exit next < exit point
  wakes : ∀ point, code.sleeps point = true → rank code.resume ≤ rank point

variable (grants : code.Grants)

/-- The steps that a worker has to do while the word is 0 or its own. -/
def Thread.effort (rounds : ℕ) (thread : Thread LockPoint UnlockPoint) : ℕ :=
  match thread.point with
  | .head => (2 * grants.most + 6) * (rounds - thread.round) + 1
  | .locking point =>
      (2 * grants.most + 6) * (rounds - (thread.round + 1)) + grants.most + 6 + grants.rank point
  | .loadCounter => (2 * grants.most + 6) * (rounds - (thread.round + 1)) + grants.most + 5
  | .storeCounter _ => (2 * grants.most + 6) * (rounds - (thread.round + 1)) + grants.most + 4
  | .unlocking point =>
      (2 * grants.most + 6) * (rounds - (thread.round + 1)) + 2 + grants.exit point
  | .finished => 0

/-- The worker is at a point of its lock call that can be come to. -/
def Thread.Good (thread : Thread LockPoint UnlockPoint) : Prop :=
  ∀ point, thread.point = .locking point → grants.good point

theorem effort_resumed_le {rounds : ℕ} {thread : Thread LockPoint UnlockPoint}
    (sleeps : asleep code thread = true) :
    (thread.resumed code).effort grants rounds ≤ thread.effort grants rounds := by
  obtain ⟨round, point⟩ := thread
  cases point with
  | locking point => exact Nat.add_le_add_left (grants.wakes point sleeps) _
  | _ => cases sleeps

/-- A worker comes closer to its end, unless it is in its lock call while the word is taken. -/
theorem advance_effort_lt {rounds : ℕ} {state counter : ℤ} {thread : Thread LockPoint UnlockPoint}
    {effect : Effect LockPoint UnlockPoint} (paced : Paced rounds thread)
    (good : thread.Good grants) (free : (∀ point, thread.point ≠ .locking point) ∨ state = 0)
    (moved : advance code rounds state counter thread = some effect) :
    effect.thread.effort grants rounds < thread.effort grants rounds := by
  obtain ⟨round, point⟩ := thread
  have split : round < rounds → (2 * grants.most + 6) * (rounds - round) =
      (2 * grants.most + 6) * (rounds - (round + 1)) + (2 * grants.most + 6) := by
    intro less
    rw [show rounds - round = rounds - (round + 1) + 1 by omega, Nat.mul_succ]
  cases point with
  | head =>
      obtain rfl := Option.some.inj moved
      have entry := grants.rank_le code.enter
      by_cases more : round < rounds
      · have whole := split more
        simp only [more, if_true, Thread.effort]
        omega
      · simp only [more, if_false, Thread.effort]
        omega
  | locking point =>
      obtain rfl := free.resolve_left fun other => other point rfl
      obtain rfl := Option.some.inj moved
      cases after : (code.lock 0 point).2 with
      | none =>
          simp only [Thread.afterLock, Thread.effort]
          omega
      | some next =>
          have less := grants.grants point next (good point rfl) after
          simp only [Thread.afterLock, Thread.effort]
          omega
  | loadCounter =>
      obtain rfl := Option.some.inj moved
      exact Nat.lt_succ_self _
  | storeCounter seen =>
      obtain rfl := Option.some.inj moved
      have exit := grants.exit_le code.leave
      simp only [Thread.effort]
      omega
  | unlocking point =>
      obtain rfl := Option.some.inj moved
      cases after : (code.unlock state point).2 with
      | none =>
          simp only [Thread.afterUnlock, Thread.effort]
          omega
      | some next =>
          have less := grants.leaves state point next after
          simp only [Thread.afterUnlock, Thread.effort]
          omega
  | finished => cases moved

theorem advance_good {rounds : ℕ} {state counter : ℤ} {thread : Thread LockPoint UnlockPoint}
    {effect : Effect LockPoint UnlockPoint} (good : thread.Good grants)
    (moved : advance code rounds state counter thread = some effect) :
    effect.thread.Good grants := by
  obtain ⟨round, point⟩ := thread
  intro spot there
  cases point with
  | head =>
      obtain rfl := Option.some.inj moved
      dsimp only at there
      split_ifs at there
      obtain rfl := Point.locking.inj there
      exact grants.enters
  | locking point =>
      obtain rfl := Option.some.inj moved
      cases after : (code.lock state point).2 with
      | none =>
          rw [after] at there
          cases there
      | some next =>
          rw [after] at there
          obtain rfl := Point.locking.inj there
          exact grants.keeps state point next (good point rfl) after
  | unlocking point =>
      obtain rfl := Option.some.inj moved
      cases after : (code.unlock state point).2 with
      | none =>
          rw [after] at there
          cases there
      | some next =>
          rw [after] at there
          cases there
  | finished => cases moved
  | _ =>
      obtain rfl := Option.some.inj moved
      cases there

/-- The owner of the word is neither finished nor in its lock call. -/
theorem going_of_owns {thread : Thread LockPoint UnlockPoint} (owns : Owns code thread) :
    thread.point ≠ .finished ∧ ∀ point, thread.point ≠ .locking point := by
  unfold Owns at owns
  refine ⟨fun ended => ?_, fun point locks => ?_⟩
  · rw [ended] at owns
    exact owns
  · rw [locks] at owns
    exact owns

namespace World

variable {w next : World ι LockPoint UnlockPoint} {rounds : ι → ℕ} [DecidableEq ι] [Fintype ι]

/-- A step of a worker, with whomever it wakes. -/
theorem exists_step {i : ι} {effect : Effect LockPoint UnlockPoint}
    (moved : advance code (rounds i) w.state w.counter (w.thread i) = some effect) :
    ∃ sleeper next, w.step code rounds (i, sleeper) = some next ∧
      (next.thread i = effect.thread) ∧ ∀ j, j ≠ i → next.thread j = w.thread j ∨
        asleep code (w.thread j) = true ∧ next.thread j = (w.thread j).resumed code := by
  obtain ⟨sleeper, threads, wakes, frame⟩ : ∃ sleeper threads,
      w.woken code i sleeper = some threads ∧ ∀ j, threads j = w.thread j ∨
        asleep code (w.thread j) = true ∧ threads j = (w.thread j).resumed code := by
    unfold woken
    by_cases waker : waking code (w.thread i) = true
    · by_cases some : ∃ j, asleep code (w.thread j) = true
      · obtain ⟨j, sleeps⟩ := some
        refine ⟨Option.some j, _, by rw [if_pos waker]; exact if_pos sleeps, fun k => ?_⟩
        by_cases same : k = j
        · subst same
          exact .inr ⟨sleeps, Function.update_self _ _ _⟩
        · exact .inl (Function.update_of_ne same _ _)
      · exact ⟨none, _, by rw [if_pos waker]; exact if_neg some, fun _ => .inl rfl⟩
    · exact ⟨none, _, if_neg waker, fun _ => .inl rfl⟩
  refine ⟨sleeper, ⟨effect.state, effect.counter, Function.update threads i effect.thread⟩,
    ?_, Function.update_self _ _ _, fun j other => ?_⟩
  · simp [step, moved, wakes]
  · rw [show (⟨effect.state, effect.counter, Function.update threads i effect.thread⟩ :
      World ι LockPoint UnlockPoint).thread j = threads j from Function.update_of_ne other _ _]
    exact frame j

/-- What all workers still have to do. -/
def totalEffort (rounds : ι → ℕ) (w : World ι LockPoint UnlockPoint) : ℕ :=
  ∑ i, (w.thread i).effort grants (rounds i)

omit [DecidableEq ι] in
/-- One worker's progress is that of all. -/
theorem totalEffort_lt {i : ι} (less : (next.thread i).effort grants (rounds i) <
      (w.thread i).effort grants (rounds i))
    (others : ∀ j, j ≠ i → next.thread j = w.thread j ∨
      asleep code (w.thread j) = true ∧ next.thread j = (w.thread j).resumed code) :
    next.totalEffort grants rounds < w.totalEffort grants rounds := by
  refine Finset.sum_lt_sum (fun j _ => ?_) ⟨i, Finset.mem_univ i, less⟩
  by_cases same : j = i
  · subst same
    exact less.le
  · rcases others j same with kept | ⟨sleeps, woken⟩
    · rw [kept]
    · rw [woken]
      exact effort_resumed_le grants sleeps

/-- **The run lemma.** No worker is at a point of its lock call
that cannot be come to. -/
theorem reached_good
    (reached : Transition.Reaches (step code rounds) (start ι LockPoint UnlockPoint) w) :
    ∀ i, (w.thread i).Good grants := by
  refine reached.invariant (motive := fun w => ∀ i, (w.thread i).Good grants)
    (fun i point there => by cases there) ?_
  rintro w ⟨i, sleeper⟩ next good _ stepped j
  obtain ⟨effect, threads, moved, wakes, rfl⟩ := step_eq_some stepped
  by_cases same : j = i
  · subst same
    simpa using advance_good grants (good j) moved
  · simp only [Function.update_of_ne same]
    rcases woken_cases wakes with ⟨rfl, _⟩ | ⟨k, _, _, rfl⟩
    · exact good j
    · by_cases self : j = k
      · subst self
        rw [Function.update_self]
        intro point there
        obtain rfl := Point.locking.inj there
        exact grants.resumes
      · rw [Function.update_of_ne self]
        exact good j

/-- A worker that has not finished goes on, unless it is in its lock call while the word is
taken. -/
theorem exists_progress_of {i : ι} (paced : Paced (rounds i) (w.thread i))
    (good : (w.thread i).Good grants) (going : (w.thread i).point ≠ .finished)
    (free : (∀ point, (w.thread i).point ≠ .locking point) ∨ w.state = 0) :
    ∃ sleeper next, w.step code rounds (i, sleeper) = some next ∧
      next.totalEffort grants rounds < w.totalEffort grants rounds := by
  obtain ⟨effect, moved⟩ : ∃ effect,
      advance code (rounds i) w.state w.counter (w.thread i) = some effect := by
    unfold advance
    cases place : (w.thread i).point with
    | finished => exact absurd place going
    | _ => exact ⟨_, rfl⟩
  have less := advance_effort_lt grants paced good free moved
  obtain ⟨sleeper, next, stepped, own, others⟩ := exists_step moved
  exact ⟨sleeper, next, stepped, totalEffort_lt grants (own ▸ less) others⟩

variable [DecidableEq UnlockPoint]

/-- Until all have finished, the owner of the word can go on, or anybody where it is 0. -/
theorem exists_progress (excludes : code.Excludes)
    (reached : Transition.Reaches (step code rounds) (start ι LockPoint UnlockPoint) w)
    (unfinished : ¬ ∀ i, (w.thread i).point = .finished) :
    ∃ label next, w.step code rounds label = some next ∧
      next.totalEffort grants rounds < w.totalEffort grants rounds := by
  obtain ⟨paced, sound⟩ := reached_sound excludes reached
  have good := reached_good grants reached
  suffices mover : ∃ i, (w.thread i).point ≠ .finished ∧
      ((∀ point, (w.thread i).point ≠ .locking point) ∨ w.state = 0) by
    obtain ⟨i, going, free⟩ := mover
    obtain ⟨sleeper, next, stepped, less⟩ :=
      exists_progress_of grants (paced i) (good i) going free
    exact ⟨(i, sleeper), next, stepped, less⟩
  obtain ⟨_, free_iff⟩ := exclusive_of_sound sound
  by_cases free : w.state = 0
  · obtain ⟨i, going⟩ := not_forall.mp unfinished
    exact ⟨i, going, .inr free⟩
  · obtain ⟨i, owns⟩ := not_forall.mp (mt free_iff.mpr free)
    obtain ⟨going, outside⟩ := going_of_owns (not_not.mp owns)
    exact ⟨i, going, .inl outside⟩

include grants in
/-- From every state that can be reached all workers can finish, and have then counted all
their rounds. -/
theorem can_finish (excludes : code.Excludes)
    (reached : Transition.Reaches (step code rounds) (start ι LockPoint UnlockPoint) w) :
    ∃ final, Transition.Reaches (step code rounds) w final ∧
      (∀ i, (final.thread i).point = .finished) ∧ final.counter = ∑ i, rounds i := by
  obtain ⟨final, ran, here, ended⟩ : ∃ final, Transition.Reaches (step code rounds) w final ∧
      Transition.Reaches (step code rounds) (start ι LockPoint UnlockPoint) final ∧
        ∀ i, (final.thread i).point = .finished :=
    Transition.exists_reaches_of_measure
      (fun v => Transition.Reaches (step code rounds) (start ι LockPoint UnlockPoint) v)
      (fun v => ∀ i, (v.thread i).point = .finished) (totalEffort grants rounds)
      (fun v here going => by
        obtain ⟨label, next, stepped, less⟩ := exists_progress grants excludes here going
        exact ⟨label, next, stepped, here.next _ stepped, less⟩)
      reached
  exact ⟨final, ran, ended, counter_finished excludes here ended⟩

end World

/-! ## The two locks -/

/-- A spinning thread has spins to do in each pass. -/
def spinlockGood : SpinlockLockPoint → Prop
  | .trylock => True
  | .spin _ spins _ => 0 < spins

def spinlockRank : SpinlockLockPoint → ℕ
  | .trylock => 1
  | .spin i spins _ => if i < spins then 1 else 2

/-- Once the word is 0, the next attempt of a spinning thread takes it. -/
theorem spinlockCode_grants : Nonempty spinlockCode.Grants := ⟨{
  good := spinlockGood
  rank := spinlockRank
  exit := fun _ => 0
  most := 2
  rank_le := by
    intro point
    cases point with
    | trylock => decide
    | spin i spins yields =>
        simp only [spinlockRank]
        split_ifs <;> decide
  exit_le := fun _ => Nat.zero_le _
  enters := trivial
  resumes := trivial
  keeps := by
    intro state point next good goesOn
    change (spinlockLock state point).2 = some next at goesOn
    cases point with
    | trylock =>
        simp only [spinlockLock, Option.ite_none_left_eq_some, Option.some.injEq] at goesOn
        rw [← goesOn.2]
        exact (by decide : 0 < 16)
    | spin i spins yields =>
        have some : 0 < spins := good
        by_cases again : i < spins
        · simp only [spinlockLock, again, if_true, Option.ite_none_left_eq_some,
            Option.some.injEq] at goesOn
          rw [← goesOn.2]
          exact some
        · simp only [spinlockLock, again, if_false, Option.some.injEq] at goesOn
          rw [← goesOn]
          unfold spinlockGood
          split_ifs <;> omega
  grants := by
    intro point next good goesOn
    change (spinlockLock 0 point).2 = some next at goesOn
    cases point with
    | trylock => simp [spinlockLock, spinlockTrylock, compareExchange] at goesOn
    | spin i spins yields =>
        have some : 0 < spins := good
        by_cases again : i < spins
        · simp [spinlockLock, again, spinlockTrylock, compareExchange] at goesOn
        · simp only [spinlockLock, again, if_false, Option.some.injEq] at goesOn
          rw [← goesOn]
          have more : 0 < if spins < maxSpins then 2 * spins else spins := by split_ifs <;> omega
          simp only [spinlockRank]
          rw [if_pos more, if_neg again]
          decide
  leaves := fun _ _ _ goesOn => by cases goesOn
  wakes := fun _ sleeps => by cases sleeps }⟩

def mutexRank : MutexLockPoint → ℕ
  | .trylock => 1
  | .retry => 1
  | _ => 2

def mutexExit : MutexUnlockPoint → ℕ
  | .exchange => 1
  | .wake => 0

/-- Once the word is 0, a thread in `mutex_lock` goes back to an attempt, which succeeds. -/
theorem mutexCode_grants : Nonempty mutexCode.Grants := ⟨{
  good := fun _ => True
  rank := mutexRank
  exit := mutexExit
  most := 2
  rank_le := fun point => by cases point <;> decide
  exit_le := fun point => by cases point <;> decide
  enters := trivial
  resumes := trivial
  keeps := fun _ _ _ _ _ => trivial
  grants := by
    intro point next _ goesOn
    change (mutexLock 0 point).2 = some next at goesOn
    cases point with
    | trylock => simp [mutexLock, mutexTrylock, compareExchange] at goesOn
    | retry => simp [mutexLock, mutexTrylock, compareExchange] at goesOn
    | _ =>
        simp [mutexLock, compareExchange] at goesOn
        rw [← goesOn]
        decide
  leaves := by
    intro state point next goesOn
    change (mutexUnlock state point).2 = some next at goesOn
    cases point with
    | exchange =>
        simp only [mutexUnlock, Option.ite_none_right_eq_some, Option.some.injEq] at goesOn
        rw [← goesOn.2]
        decide
    | wake => cases goesOn
  wakes := fun point sleeps => by
    have asleep : point = .asleep := of_decide_eq_true sleeps
    rw [asleep]
    decide }⟩

/-! ## Without a return for nothing -/

namespace World

variable {ι : Type} [DecidableEq ι] [Fintype ι] {rounds : ι → ℕ} {w : Mutexed ι}

/-- No `futex_wait` returns without a wake-up. -/
def Prompted (w : Mutexed ι) (label : ι × Option ι) : Prop :=
  asleep mutexCode (w.thread label.1) = false

/-- Where the sleepers are covered, somebody awake can go on until all have finished, and
nobody has to fall asleep for that. -/
theorem exists_prompted_progress (grants : mutexCode.Grants) (covered : w.Covered)
    (reached : Transition.Reaches (step mutexCode rounds)
      (start ι MutexLockPoint MutexUnlockPoint) w)
    (unfinished : ¬ ∀ i, (w.thread i).point = .finished) :
    ∃ label next, (w.Answered label ∧ w.Prompted label) ∧
      w.step mutexCode rounds label = some next ∧
      next.totalEffort grants rounds < w.totalEffort grants rounds := by
  obtain ⟨paced, sound⟩ := reached_sound mutexCode_excludes reached
  have good := reached_good grants reached
  suffices mover : ∃ i, (w.thread i).point ≠ .finished ∧ asleep mutexCode (w.thread i) = false ∧
      ((∀ point, (w.thread i).point ≠ .locking point) ∨ w.state = 0) by
    obtain ⟨i, going, awake, free⟩ := mover
    obtain ⟨sleeper, next, stepped, less⟩ :=
      exists_progress_of grants (paced i) (good i) going free
    refine ⟨(i, sleeper), next, ⟨fun waits two => ?_, awake⟩, stepped, less⟩
    rcases free with outside | zero
    · exact absurd waits (outside _)
    · omega
  obtain ⟨_, free_iff⟩ := exclusive_of_sound sound
  by_cases free : w.state = 0
  · by_contra stuck
    push Not at stuck
    have sleep : ∀ i, (w.thread i).point ≠ .finished → asleep mutexCode (w.thread i) = true := by
      intro i going
      by_contra awake
      exact (stuck i going (Bool.eq_false_iff.mpr awake)).2 free
    obtain ⟨i, going⟩ := not_forall.mp unfinished
    refine covered.not_stranded ⟨⟨i, sleep i going⟩, free, fun j inside => sleep j fun ended => ?_⟩
    rcases inside with ⟨point, locks⟩ | ⟨point, unlocks⟩
    · rw [ended] at locks
      cases locks
    · rw [ended] at unlocks
      cases unlocks
  · obtain ⟨i, owns⟩ := not_forall.mp (mt free_iff.mpr free)
    obtain ⟨going, outside⟩ := going_of_owns (not_not.mp owns)
    refine ⟨i, going, ?_, .inl outside⟩
    rw [Bool.eq_false_iff]
    exact fun sleeps => outside _ ((asleep_iff _).mp sleeps)

/-- With the mutex all workers can finish where every sleeper is about to be woken. -/
theorem answered_can_finish (grants : mutexCode.Grants)
    (reached : Transition.ReachesBy (step mutexCode rounds) Answered
      (start ι MutexLockPoint MutexUnlockPoint) w) :
    ∃ final, Transition.ReachesBy (step mutexCode rounds)
        (fun w label => w.Answered label ∧ w.Prompted label) w final ∧
      (∀ i, (final.thread i).point = .finished) ∧ final.counter = ∑ i, rounds i := by
  obtain ⟨final, ran, here, ended⟩ : ∃ final,
      Transition.ReachesBy (step mutexCode rounds)
        (fun w label => w.Answered label ∧ w.Prompted label) w final ∧
      Transition.ReachesBy (step mutexCode rounds) Answered
        (start ι MutexLockPoint MutexUnlockPoint) final ∧
        ∀ i, (final.thread i).point = .finished :=
    Transition.exists_reachesBy_of_measure
      (fun v => Transition.ReachesBy (step mutexCode rounds) Answered
        (start ι MutexLockPoint MutexUnlockPoint) v)
      (fun v => ∀ i, (v.thread i).point = .finished) (totalEffort grants rounds)
      (fun v here going => by
        obtain ⟨label, next, permitted, stepped, less⟩ :=
          exists_prompted_progress grants (covered_of_reaches here) here.reaches going
        exact ⟨label, next, permitted, stepped, .step label here permitted.1 stepped, less⟩)
      reached
  exact ⟨final, ran, ended, counter_finished mutexCode_excludes here.reaches ended⟩

end World

/-- **No worker is stuck for good.** With the spinlock and from every state that can be
reached, all workers can still finish, and the counter is then the number of all rounds. So
they can with the mutex, without any `futex_wait` returning for nothing, in runs whose threads
fall asleep only while no more threads sleep than are about to be woken; in other runs a
sleeper may be left that nothing else brings on. -/
theorem both_can_finish {ι : Type} [DecidableEq ι] [Fintype ι] (rounds : ι → ℕ) :
    (∀ w, Transition.Reaches (World.step spinlockCode rounds)
        (World.start ι SpinlockLockPoint SpinlockUnlockPoint) w →
      ∃ final, Transition.Reaches (World.step spinlockCode rounds) w final ∧
        (∀ i, (final.thread i).point = .finished) ∧ final.counter = ∑ i, rounds i) ∧
    (∀ w, Transition.ReachesBy (World.step mutexCode rounds) World.Answered
        (World.start ι MutexLockPoint MutexUnlockPoint) w →
      ∃ final, Transition.ReachesBy (World.step mutexCode rounds)
          (fun w label => w.Answered label ∧ w.Prompted label) w final ∧
        (∀ i, (final.thread i).point = .finished) ∧ final.counter = ∑ i, rounds i) := by
  obtain ⟨mutexGrants⟩ := mutexCode_grants
  obtain ⟨spinlockGrants⟩ := spinlockCode_grants
  exact ⟨fun _ reached => World.can_finish spinlockGrants spinlockCode_excludes reached,
    fun _ reached => World.answered_can_finish mutexGrants reached⟩

/-- The theorem where the second of two workers spins while the first is inside, and where
the second of three sleeps while the first is inside. -/
theorem both_can_finish_run :
    (∃ w final : World (Fin 2) SpinlockLockPoint SpinlockUnlockPoint,
      (w.thread 0).point = .loadCounter ∧ (w.thread 1).point = .locking (.spin 2 16 0) ∧
        Transition.Reaches (World.step spinlockCode fun _ => 1) w final ∧ final.counter = 2) ∧
    ∃ w final : World.Mutexed (Fin 3), (w.thread 1).point = .locking .asleep ∧ w.state = 2 ∧
      Transition.ReachesBy (World.step mutexCode World.sampleRounds)
        (fun w label => w.Answered label ∧ w.Prompted label) w final ∧ final.counter = 4 := by
  have ran : ((Transition.run (World.step spinlockCode fun _ => 1)
      (World.start (Fin 2) SpinlockLockPoint SpinlockUnlockPoint)
      (List.replicate 2 (0, none) ++ List.replicate 4 (1, none))).map fun w =>
        ((w.thread 0).point, (w.thread 1).point)) =
      some (.loadCounter, .locking (.spin 2 16 0)) := by
    decide +kernel
  obtain ⟨w, run, seen⟩ := Option.map_eq_some_iff.mp ran
  obtain ⟨inside, spins⟩ := Prod.mk.inj seen
  obtain ⟨final, went, _, counted⟩ := (both_can_finish fun _ : Fin 2 => 1).1 w (.of_run run .start)
  refine ⟨⟨w, final, inside, spins, went, counted⟩, ?_⟩
  have one : ((Transition.run (Transition.guarded (World.step mutexCode World.sampleRounds)
      fun w label => decide (w.Answered label))
      (World.start (Fin 3) MutexLockPoint MutexUnlockPoint)
      (World.twoAnnounced ++ [(1, none)])).map fun w => ((w.thread 1).point, w.state)) =
        some (.locking .asleep, 2) := by
    decide +kernel
  obtain ⟨v, ran', seen'⟩ := Option.map_eq_some_iff.mp one
  obtain ⟨sleeps, two⟩ := Prod.mk.inj seen'
  have answered : Transition.ReachesBy (World.step mutexCode World.sampleRounds) World.Answered
      (World.start (Fin 3) MutexLockPoint MutexUnlockPoint) v :=
    .of_guarded ran' (fun v label passed => of_decide_eq_true passed) .start
  obtain ⟨final', went', _, counted'⟩ := (both_can_finish World.sampleRounds).2 v answered
  exact ⟨v, final', sleeps, two, went', counted'⟩

end OperationSystems.Sync
