import OperationSystems.Sync.Exclusion

/-!
# Sleepers and wake-ups of the futex mutex

An unlock call wakes one sleeper if it finds 2 in the word, and a thread sleeps only
after the word was 2. So as long as each 2 answers for one sleeper, the sleepers are
covered by the unlock calls that are about to wake and by the 2 in the word. But a
thread that has announced itself may fall asleep on somebody else's 2, after its own
was exchanged out and the wake-up found nobody: then two sleep on one announcement
and one of them is never woken.
-/

namespace OperationSystems.Sync

open LockedWord

/-- A thread of the futex mutex. -/
abbrev MutexThread : Type := Thread MutexLockPoint MutexUnlockPoint

/-- The thread is inside `mutex_lock` or `mutex_unlock`. -/
def InCall (thread : MutexThread) : Prop :=
  (∃ point, thread.point = .locking point) ∨ ∃ point, thread.point = .unlocking point

/-- 1 for a thread that sleeps in `futex_wait`. -/
def sleeperWeight (thread : MutexThread) : ℕ := if asleep mutexCode thread then 1 else 0

/-- 1 for a thread that has exchanged 2 out of the word and has not yet called
`futex_wake`. -/
def wakerWeight (thread : MutexThread) : ℕ := if waking mutexCode thread then 1 else 0

/-- 1 while the word says that somebody waits. -/
def announced (state : ℤ) : ℕ := if state = 2 then 1 else 0

theorem announced_of_ne {state : ℤ} (other : state ≠ 2) : announced state = 0 := if_neg other

theorem asleep_iff (thread : MutexThread) :
    asleep mutexCode thread = true ↔ thread.point = .locking .asleep := by
  obtain ⟨round, point⟩ := thread
  cases point with
  | locking point => cases point <;> simp [asleep, mutexCode]
  | _ => simp [asleep]

theorem waking_iff (thread : MutexThread) :
    waking mutexCode thread = true ↔ thread.point = .unlocking .wake := by
  obtain ⟨round, point⟩ := thread
  cases point with
  | unlocking point => cases point <;> simp [waking, mutexCode]
  | _ => simp [waking]

/-- What a step does to the thread's weights and to the announcement: a wake-up; a
thread that falls asleep on a 2; or neither, and then an announcement is taken away
only by who will answer it. -/
theorem advance_account {rounds : ℕ} {state counter : ℤ} {thread : MutexThread}
    {effect : Effect MutexLockPoint MutexUnlockPoint}
    (moved : advance mutexCode rounds state counter thread = some effect) :
    (waking mutexCode thread = true ∧ sleeperWeight effect.thread = 0 ∧
      wakerWeight effect.thread = 0 ∧ effect.state = state) ∨
    (thread.point = .locking .wait ∧ state = 2 ∧ sleeperWeight effect.thread = 1 ∧
      wakerWeight effect.thread = 0 ∧ effect.state = state) ∨
    (waking mutexCode thread = false ∧ sleeperWeight effect.thread = 0 ∧
      announced state ≤ wakerWeight effect.thread + announced effect.state) := by
  obtain ⟨round, point⟩ := thread
  cases point with
  | head =>
      obtain rfl := Option.some.inj moved
      refine .inr (.inr ⟨rfl, ?_, Nat.le_add_left _ _⟩)
      dsimp only
      split_ifs <;> rfl
  | locking point =>
      obtain rfl := Option.some.inj moved
      have attempt : announced state ≤ announced (mutexTrylock state).2 := by
        rcases compareExchange_cases state 0 1 with ⟨free, _⟩ | ⟨_, kept⟩
        · exact (announced_of_ne (by omega)).le.trans (Nat.zero_le _)
        · simp [mutexTrylock, kept]
      cases point with
      | trylock =>
          refine .inr (.inr ⟨rfl, ?_, attempt.trans (Nat.le_add_left _ _)⟩)
          change sleeperWeight (Thread.afterLock _ (if (mutexTrylock state).1 then _ else _)) = 0
          split_ifs <;> rfl
      | retry =>
          refine .inr (.inr ⟨rfl, ?_, attempt.trans (Nat.le_add_left _ _)⟩)
          change sleeperWeight (Thread.afterLock _ (if (mutexTrylock state).1 then _ else _)) = 0
          split_ifs <;> rfl
      | load =>
          refine .inr (.inr ⟨rfl, ?_, Nat.le_add_left _ _⟩)
          change sleeperWeight (Thread.afterLock _ (some (if state = 1 then _ else _))) = 0
          split_ifs <;> rfl
      | raise =>
          rcases compareExchange_cases state 1 2 with ⟨one, raised⟩ | ⟨_, kept⟩
          · refine .inr (.inr ⟨rfl, ?_, (announced_of_ne (by omega)).le.trans (Nat.zero_le _)⟩)
            simp [mutexCode, mutexLock, raised, Thread.afterLock, sleeperWeight, asleep]
          · refine .inr (.inr ⟨rfl, ?_, ?_⟩)
            · simp [mutexCode, mutexLock, kept, Thread.afterLock, sleeperWeight, asleep]
            · simp [mutexCode, mutexLock, kept]
      | wait =>
          by_cases two : state = 2
          · refine .inr (.inl ⟨rfl, two, ?_, ?_, rfl⟩)
            · simp [mutexCode, mutexLock, two, Thread.afterLock, sleeperWeight, asleep]
            · simp [mutexCode, mutexLock, two, Thread.afterLock, wakerWeight, waking]
          · refine .inr (.inr ⟨rfl, ?_, (announced_of_ne two).le.trans (Nat.zero_le _)⟩)
            simp [mutexCode, mutexLock, two, Thread.afterLock, sleeperWeight, asleep]
      | asleep => exact .inr (.inr ⟨rfl, rfl, Nat.le_add_left _ _⟩)
  | loadCounter =>
      obtain rfl := Option.some.inj moved
      exact .inr (.inr ⟨rfl, rfl, Nat.le_add_left _ _⟩)
  | storeCounter seen =>
      obtain rfl := Option.some.inj moved
      exact .inr (.inr ⟨rfl, rfl, Nat.le_add_left _ _⟩)
  | unlocking point =>
      obtain rfl := Option.some.inj moved
      cases point with
      | exchange =>
          by_cases two : state = 2
          · refine .inr (.inr ⟨rfl, ?_, ?_⟩)
            · simp [mutexCode, mutexUnlock, two, Thread.afterUnlock, sleeperWeight, asleep]
            · simp [mutexCode, mutexUnlock, two, Thread.afterUnlock, wakerWeight, waking, announced]
          · refine .inr (.inr ⟨rfl, ?_, (announced_of_ne two).le.trans (Nat.zero_le _)⟩)
            simp [mutexCode, mutexUnlock, two, Thread.afterUnlock, sleeperWeight, asleep]
      | wake => exact .inl ⟨rfl, rfl, rfl, rfl⟩
  | finished => cases moved

namespace World

/-- The threads of a program that uses the futex mutex. -/
abbrev Mutexed (ι : Type) : Type := World ι MutexLockPoint MutexUnlockPoint

variable {ι : Type} [Fintype ι] {rounds : ι → ℕ} {w next : Mutexed ι}

/-- How many threads sleep in `futex_wait`. -/
def sleepers (w : Mutexed ι) : ℕ := Tally.tally sleeperWeight w.thread

/-- How many threads are about to call `futex_wake`. -/
def wakers (w : Mutexed ι) : ℕ := Tally.tally wakerWeight w.thread

omit [Fintype ι] in
/-- A thread sleeps while the mutex is free and every thread that is inside
`mutex_lock` or `mutex_unlock` sleeps too. -/
def Stranded (w : Mutexed ι) : Prop :=
  (∃ i, asleep mutexCode (w.thread i) = true) ∧ w.state = 0 ∧
    ∀ j, InCall (w.thread j) → asleep mutexCode (w.thread j) = true

/-- A thread falls asleep only while no more threads sleep than are about to be
woken. -/
def Answered (w : Mutexed ι) (label : ι × Option ι) : Prop :=
  (w.thread label.1).point = .locking .wait → w.state = 2 → w.sleepers ≤ w.wakers

instance (w : Mutexed ι) (label : ι × Option ι) : Decidable (w.Answered label) :=
  inferInstanceAs (Decidable (_ → _ → _))

/-- Every sleeper has a wake-up that is on its way or announced in the word. -/
def Covered (w : Mutexed ι) : Prop := w.sleepers ≤ w.wakers + announced w.state

theorem sleepers_pos_iff : 0 < w.sleepers ↔ ∃ i, asleep mutexCode (w.thread i) = true := by
  unfold sleepers
  rw [Tally.tally_pos_iff]
  refine exists_congr fun i => ?_
  unfold sleeperWeight
  cases asleep mutexCode (w.thread i) <;> simp

theorem wakers_pos_iff : 0 < w.wakers ↔ ∃ i, waking mutexCode (w.thread i) = true := by
  unfold wakers
  rw [Tally.tally_pos_iff]
  refine exists_congr fun i => ?_
  unfold wakerWeight
  cases waking mutexCode (w.thread i) <;> simp

/-- Where every sleeper is covered, none is stranded. -/
theorem Covered.not_stranded (covered : w.Covered) : ¬ w.Stranded := by
  rintro ⟨sleeps, free, others⟩
  have some := sleepers_pos_iff.mpr sleeps
  have none : w.wakers = 0 := by
    by_contra more
    obtain ⟨j, wakes⟩ := wakers_pos_iff.mp (Nat.pos_of_ne_zero more)
    have there := (waking_iff _).mp wakes
    have asleep := (asleep_iff _).mp (others j (.inr ⟨_, there⟩))
    rw [there] at asleep
    cases asleep
  unfold Covered at covered
  rw [none, announced_of_ne (by omega)] at covered
  omega

variable [DecidableEq ι]

/-- What a step does to the two counts: the stepping thread changes its weights,
and a waking step takes one of the sleepers, unless there is none. -/
theorem counts_step {i : ι} {sleeper : Option ι} {effect : Effect MutexLockPoint MutexUnlockPoint}
    {threads : ι → MutexThread} (wakes : w.woken mutexCode i sleeper = some threads)
    (after : next.thread = Function.update threads i effect.thread) :
    next.wakers + wakerWeight (w.thread i) = w.wakers + wakerWeight effect.thread ∧
      (next.sleepers + sleeperWeight (w.thread i) = w.sleepers + sleeperWeight effect.thread ∧
          (waking mutexCode (w.thread i) = true → w.sleepers = 0) ∨
        waking mutexCode (w.thread i) = true ∧
          next.sleepers + 1 = w.sleepers + sleeperWeight effect.thread) := by
  have turn : ∀ weight : MutexThread → ℕ, Tally.tally weight next.thread + weight (threads i) =
      Tally.tally weight threads + weight effect.thread := by
    intro weight
    rw [after]
    exact Tally.tally_update weight threads i effect.thread
  have wakerTurn : next.wakers + wakerWeight (threads i) =
    Tally.tally wakerWeight threads + wakerWeight effect.thread := turn wakerWeight
  have sleeperTurn : next.sleepers + sleeperWeight (threads i) =
    Tally.tally sleeperWeight threads + sleeperWeight effect.thread := turn sleeperWeight
  rcases woken_cases wakes with ⟨rfl, nobody⟩ | ⟨j, waker, sleeps, rfl⟩
  · refine ⟨wakerTurn, .inl ⟨sleeperTurn, fun waker => ?_⟩⟩
    by_contra some
    obtain ⟨j, sleeps⟩ := sleepers_pos_iff.mp (Nat.pos_of_ne_zero some)
    rw [nobody waker j] at sleeps
    cases sleeps
  · have apart : i ≠ j := by
      rintro rfl
      have one := (waking_iff _).mp waker
      rw [(asleep_iff _).mp sleeps] at one
      cases one
    have asleep := (asleep_iff _).mp sleeps
    have gone := Tally.tally_update sleeperWeight w.thread j ((w.thread j).resumed mutexCode)
    have same := Tally.tally_update wakerWeight w.thread j ((w.thread j).resumed mutexCode)
    have was : sleeperWeight (w.thread j) = 1 := by simp [sleeperWeight, sleeps]
    have now : sleeperWeight ((w.thread j).resumed mutexCode) = 0 := rfl
    have still : wakerWeight (w.thread j) = 0 := by simp [wakerWeight, waking, asleep]
    have none : wakerWeight ((w.thread j).resumed mutexCode) = 0 := rfl
    have awake : sleeperWeight (w.thread i) = 0 := by
      have there := (waking_iff _).mp waker
      simp [sleeperWeight, Sync.asleep, there]
    rw [Function.update_of_ne apart] at wakerTurn sleeperTurn
    unfold wakers sleepers at *
    refine ⟨by omega, .inr ⟨waker, by omega⟩⟩

/-- A step that meets the condition keeps the sleepers covered. -/
theorem Covered.step (covered : w.Covered) {label : ι × Option ι} (answered : w.Answered label)
    (stepped : w.step mutexCode rounds label = some next) : next.Covered := by
  obtain ⟨i, sleeper⟩ := label
  obtain ⟨effect, threads, moved, wakes, after⟩ := step_eq_some stepped
  have places : next.thread = Function.update threads i effect.thread := by rw [after]
  have word : next.state = effect.state := by rw [after]
  obtain ⟨wakerCount, sleeperCount⟩ := counts_step wakes places
  unfold Covered at covered ⊢
  rw [word]
  rcases advance_account moved with ⟨waker, awake, done, same⟩ |
    ⟨falls, two, sleeps, done, same⟩ | ⟨other, awake, answers⟩
  · have was : wakerWeight (w.thread i) = 1 := by simp [wakerWeight, waker]
    rw [same]
    rcases sleeperCount with ⟨count, nobody⟩ | ⟨_, count⟩
    · have none := nobody waker
      omega
    · omega
  · -- the one step that the condition is about
    have few := answered falls two
    have one : announced w.state = 1 := if_pos two
    have was : wakerWeight (w.thread i) = 0 := by simp [wakerWeight, waking, falls]
    rw [same]
    rcases sleeperCount with ⟨count, _⟩ | ⟨waker, _⟩
    · omega
    · rw [(waking_iff _).mp waker] at falls
      cases falls
  · have was : wakerWeight (w.thread i) = 0 := by simp [wakerWeight, other]
    rcases sleeperCount with ⟨count, _⟩ | ⟨waker, _⟩
    · omega
    · rw [other] at waker
      cases waker

/-- A run whose steps meet the condition keeps the sleepers covered. -/
theorem covered_of_reaches (reached : Transition.ReachesBy (step mutexCode rounds) Answered
    (start ι MutexLockPoint MutexUnlockPoint) w) : w.Covered := by
  refine reached.invariant (motive := Covered) ?_ ?_
  · have none : sleepers (start ι MutexLockPoint MutexUnlockPoint) = 0 :=
      Tally.tally_eq_zero fun _ => rfl
    unfold Covered
    omega
  · intro v label after covered answered stepped
    exact covered.step answered stepped

/-! ## Where a sleeper is not covered -/

/-- More threads sleep than are going to be woken. -/
def Excess (w : Mutexed ι) : Prop := w.wakers + announced w.state < w.sleepers

end World

/-- A bound for the steps of a thread to the end of its call or to its next sleep,
while the mutex is free or its own. -/
def effort (thread : MutexThread) : ℕ :=
  match thread.point with
  | .locking .trylock => 5
  | .locking .load => 6
  | .locking .raise => 6
  | .locking .wait => 6
  | .locking .asleep => 5
  | .locking .retry => 5
  | .loadCounter => 4
  | .storeCounter _ => 3
  | .unlocking .exchange => 2
  | .unlocking .wake => 1
  | _ => 0

namespace World

variable {ι : Type} [Fintype ι] {rounds : ι → ℕ} {w next : Mutexed ι} [DecidableEq ι]

/-- A step of a thread that neither sleeps nor wakes, and announces nothing new. -/
theorem Excess.quiet_step (excess : w.Excess) {i : ι}
    {effect : Effect MutexLockPoint MutexUnlockPoint}
    (moved : advance mutexCode (rounds i) w.state w.counter (w.thread i) = some effect)
    (awake : asleep mutexCode (w.thread i) = false) (calm : waking mutexCode (w.thread i) = false)
    (keeps : wakerWeight effect.thread + announced effect.state ≤ announced w.state)
    (less : effort effect.thread < effort (w.thread i)) :
    ∃ label next, w.step mutexCode rounds label = some next ∧ next.Excess ∧
      Tally.tally effort next.thread < Tally.tally effort w.thread := by
  have wakes : w.woken mutexCode i none = some w.thread := by simp [woken, calm]
  let next : Mutexed ι := ⟨effect.state, effect.counter, Function.update w.thread i effect.thread⟩
  refine ⟨(i, none), next, ?_, ?_, ?_⟩
  · simp [step, moved, wakes, next]
  · obtain ⟨wakerCount, sleeperCount⟩ :=
      counts_step wakes (show next.thread = Function.update w.thread i effect.thread from rfl)
    have out : sleeperWeight (w.thread i) = 0 := by simp [sleeperWeight, awake]
    have none : wakerWeight (w.thread i) = 0 := by simp [wakerWeight, calm]
    unfold Excess at excess ⊢
    change _ + announced effect.state < _
    rcases sleeperCount with ⟨count, _⟩ | ⟨waker, _⟩
    · omega
    · rw [calm] at waker
      cases waker
  · have spent := Tally.tally_update effort w.thread i effect.thread
    change Tally.tally effort (Function.update w.thread i effect.thread) < _
    omega

/-- The owner of the mutex goes on. -/
theorem Excess.owner_step (excess : w.Excess) {i : ι} (owns : Owns mutexCode (w.thread i)) :
    ∃ label next, w.step mutexCode rounds label = some next ∧ next.Excess ∧
      Tally.tally effort next.thread < Tally.tally effort w.thread := by
  cases place : w.thread i with
  | mk round point =>
      rw [place] at owns
      cases point with
      | loadCounter =>
          exact excess.quiet_step (by rw [place]; rfl) (by rw [place]; rfl) (by rw [place]; rfl)
            (Nat.zero_add _).le (by rw [place]; exact Nat.lt_succ_self 3)
      | storeCounter seen =>
          exact excess.quiet_step (by rw [place]; rfl) (by rw [place]; rfl) (by rw [place]; rfl)
            (Nat.zero_add _).le (by rw [place]; exact Nat.lt_succ_self 2)
      | unlocking point =>
          have first : point = .exchange := owns
          subst first
          refine excess.quiet_step (by rw [place]; rfl) (by rw [place]; rfl) (by rw [place]; rfl)
            ?_ ?_
          · change wakerWeight (Thread.afterUnlock _ (if w.state = 2 then _ else _)) + 0 ≤ _
            unfold announced
            split_ifs <;> exact le_rfl
          · rw [place]
            change effort (Thread.afterUnlock _ (if w.state = 2 then _ else _)) < 2
            split_ifs
            · exact Nat.lt_succ_self 1
            · exact Nat.succ_pos 1
      | head => exact owns.elim
      | locking point => exact owns.elim
      | finished => exact owns.elim

/-- A waker wakes one of the sleepers. -/
theorem Excess.waker_step (excess : w.Excess) {i : ι}
    (waker : waking mutexCode (w.thread i) = true) :
    ∃ label next, w.step mutexCode rounds label = some next ∧ next.Excess ∧
      Tally.tally effort next.thread < Tally.tally effort w.thread := by
  have some : 0 < w.sleepers := by
    unfold Excess at excess
    omega
  obtain ⟨j, sleeps⟩ := sleepers_pos_iff.mp some
  have there := (waking_iff _).mp waker
  have asleep := (asleep_iff _).mp sleeps
  have apart : i ≠ j := by
    rintro rfl
    rw [there] at asleep
    cases asleep
  let threads := Function.update w.thread j ((w.thread j).resumed mutexCode)
  have wakes : w.woken mutexCode i (.some j) = .some threads := by
    simp [woken, waker, sleeps, threads]
  let after : MutexThread := ⟨(w.thread i).round + 1, .head⟩
  let next : Mutexed ι := ⟨w.state, w.counter, Function.update threads i after⟩
  refine ⟨(i, .some j), next, ?_, ?_, ?_⟩
  · have moved : advance mutexCode (rounds i) w.state w.counter (w.thread i) =
        .some ⟨w.state, w.counter, after⟩ := by
      unfold advance
      rw [there]
      rfl
    simp [step, moved, wakes, next]
  · let effect : Effect MutexLockPoint MutexUnlockPoint := ⟨w.state, w.counter, after⟩
    obtain ⟨wakerCount, sleeperCount⟩ :=
      counts_step wakes (show next.thread = Function.update threads i effect.thread from rfl)
    have one : wakerWeight (w.thread i) = 1 := by simp [wakerWeight, waker]
    have none : wakerWeight after = 0 := rfl
    have out : sleeperWeight after = 0 := rfl
    unfold Excess at excess ⊢
    change _ + announced w.state < _
    rw [show effect.thread = after from rfl] at wakerCount sleeperCount
    rcases sleeperCount with ⟨_, nobody⟩ | ⟨_, count⟩
    · have empty := nobody waker
      omega
    · omega
  · have spent := Tally.tally_update effort threads i after
    have woke := Tally.tally_update effort w.thread j ((w.thread j).resumed mutexCode)
    have was : effort (w.thread j) = 5 := by
      unfold effort
      rw [asleep]
    have now : effort ((w.thread j).resumed mutexCode) = 5 := rfl
    have one : effort (threads i) = 1 := by
      have same : threads i = w.thread i := Function.update_of_ne apart _ _
      rw [same]
      unfold effort
      rw [there]
    have none : effort after = 0 := rfl
    change Tally.tally effort (Function.update threads i after) < _
    change Tally.tally effort threads + _ = _ at woke
    omega

/-- A thread that is awake in `mutex_lock` goes on to take the free mutex. -/
theorem Excess.locking_step (excess : w.Excess) (free : w.state = 0) {i : ι}
    {point : MutexLockPoint} (place : (w.thread i).point = .locking point)
    (awake : point ≠ .asleep) :
    ∃ label next, w.step mutexCode rounds label = some next ∧ next.Excess ∧
      Tally.tally effort next.thread < Tally.tally effort w.thread := by
  have quiet : asleep mutexCode (w.thread i) = false := by
    simpa [asleep, place, mutexCode] using awake
  have calm : waking mutexCode (w.thread i) = false := by simp [waking, place]
  have moved : advance mutexCode (rounds i) w.state w.counter (w.thread i) =
      some ⟨(mutexLock w.state point).1, w.counter,
        (w.thread i).afterLock (mutexLock w.state point).2⟩ := by
    unfold advance
    rw [place]
    rfl
  apply excess.quiet_step moved quiet calm
  · rw [free]
    cases point <;> exact le_rfl
  · have had : effort (w.thread i) = effort ⟨0, .locking point⟩ := by
      unfold effort
      rw [place]
    rw [had, free]
    cases point with
    | trylock => exact Nat.lt_succ_self 4
    | load => exact Nat.lt_succ_self 5
    | raise => exact Nat.lt_succ_self 5
    | wait => exact Nat.lt_succ_self 5
    | asleep => exact absurd rfl awake
    | retry => exact Nat.lt_succ_self 4

/-- While more sleep than will be woken and somebody is awake in a call, a step brings
the stranding nearer: the owner first, then the wakers, then who is in `mutex_lock`. -/
theorem Excess.step_towards (excess : w.Excess) (sound : Sound 0 (· + 1) 0 (w.view mutexCode))
    (moving : ¬ w.Stranded) :
    ∃ label next, w.step mutexCode rounds label = some next ∧ next.Excess ∧
      Tally.tally effort next.thread < Tally.tally effort w.thread := by
  obtain ⟨_, free_iff⟩ := exclusive_of_sound sound
  by_cases free : w.state = 0
  · by_cases wakes : ∃ i, waking mutexCode (w.thread i) = true
    · obtain ⟨i, waker⟩ := wakes
      exact excess.waker_step waker
    · have some : 0 < w.sleepers := by
        unfold Excess at excess
        omega
      have awake : ∃ i, InCall (w.thread i) ∧ asleep mutexCode (w.thread i) ≠ true := by
        by_contra none
        push Not at none
        exact moving ⟨sleepers_pos_iff.mp some, free, none⟩
      obtain ⟨i, ⟨point, place⟩ | ⟨point, place⟩, stays⟩ := awake
      · apply excess.locking_step free place
        rintro rfl
        exact stays ((asleep_iff _).mpr place)
      · cases point with
        | exchange =>
            refine absurd ?_ (free_iff.mp free i)
            unfold Owns
            rw [place]
            rfl
        | wake => exact absurd ⟨i, (waking_iff _).mpr place⟩ wakes
  · have owner := mt free_iff.mpr free
    push Not at owner
    obtain ⟨i, owns⟩ := owner
    exact excess.owner_step owns

/-- Once more sleep than will be woken, the others can finish their calls and leave a
sleeper behind. -/
theorem Excess.strands (excess : w.Excess)
    (reached : Transition.Reaches (step mutexCode rounds)
      (start ι MutexLockPoint MutexUnlockPoint) w) :
    ∃ v, Transition.Reaches (step mutexCode rounds) w v ∧ v.Stranded := by
  generalize bound : Tally.tally effort w.thread = steps
  induction steps using Nat.strong_induction_on generalizing w with
  | _ steps ih =>
      by_cases stranded : w.Stranded
      · exact ⟨w, .start, stranded⟩
      · obtain ⟨label, next, stepped, more, less⟩ :=
          excess.step_towards (reached_sound mutexCode_excludes reached).2 stranded
        obtain ⟨v, rest, finish⟩ :=
          ih _ (bound ▸ less) more (reached.next label stepped) rfl
        exact ⟨v, .trans (.step label .start trivial stepped) rest, finish⟩

/-- A step that does not meet the condition makes one sleeper too many. -/
theorem excess_of_not_answered {label : ι × Option ι}
    (unanswered : ¬ w.Answered label)
    (stepped : w.step mutexCode rounds label = some next) : next.Excess := by
  obtain ⟨i, sleeper⟩ := label
  unfold Answered at unanswered
  push Not at unanswered
  obtain ⟨falls, two, more⟩ := unanswered
  obtain ⟨effect, threads, moved, wakes, after⟩ := step_eq_some stepped
  have places : next.thread = Function.update threads i effect.thread := by rw [after]
  have word : next.state = effect.state := by rw [after]
  obtain ⟨wakerCount, sleeperCount⟩ := counts_step wakes places
  have calm : wakerWeight (w.thread i) = 0 := by simp [wakerWeight, waking, falls]
  have awake : sleeperWeight (w.thread i) = 0 := by
    simp [sleeperWeight, asleep, falls, mutexCode]
  have one : announced w.state = 1 := if_pos two
  unfold Excess
  rw [word]
  rcases advance_account moved with ⟨waker, _⟩ | ⟨_, _, sleeps, done, same⟩ | ⟨_, stays, _⟩
  · rw [(waking_iff _).mp waker] at falls
    cases falls
  · rw [same, one]
    rcases sleeperCount with ⟨count, _⟩ | ⟨waker, _⟩
    · omega
    · rw [(waking_iff _).mp waker] at falls
      cases falls
  · -- the comparison with 2 succeeds, so the thread does fall asleep
    have moves : advance mutexCode (rounds i) w.state w.counter (w.thread i) =
        some ⟨w.state, w.counter, (w.thread i).afterLock (some .asleep)⟩ := by
      unfold advance
      rw [falls]
      simp [mutexCode, mutexLock, two]
    obtain rfl := Option.some.inj (moves.symm.trans moved)
    cases stays

/-- **When the futex mutex strands a sleeper.** In runs whose threads fall asleep only
while no more threads sleep than are about to be woken, no sleeper is stranded; and
after a step of any run that breaks this, the run can go on to a stranded sleeper. -/
theorem stranded_iff_unanswered :
    (∀ w, Transition.ReachesBy (step mutexCode rounds) Answered
        (start ι MutexLockPoint MutexUnlockPoint) w → ¬ w.Stranded) ∧
    (∀ w label next, Transition.Reaches (step mutexCode rounds)
        (start ι MutexLockPoint MutexUnlockPoint) w → ¬ w.Answered label →
      w.step mutexCode rounds label = some next →
        ∃ v, Transition.Reaches (step mutexCode rounds) next v ∧ v.Stranded) := by
  refine ⟨fun w reached => (covered_of_reaches reached).not_stranded, ?_⟩
  intro w label next reached unanswered stepped
  exact (excess_of_not_answered unanswered stepped).strands (reached.next label stepped)

/-- Three threads of which the first does two rounds. -/
def sampleRounds (i : Fin 3) : ℕ := if i = 0 then 2 else 1

/-- The first thread unlocks between the second one's announcement and its
`futex_wait`, locks again, and the third one announces itself too. -/
def twoAnnounced : List (Fin 3 × Option (Fin 3)) :=
  List.replicate 2 (0, none) ++ List.replicate 4 (1, none) ++ List.replicate 6 (0, none) ++
    List.replicate 4 (2, none)

/-- The theorem at a run where one thread sleeps, and at the step that puts a second
one to sleep on the same announcement. -/
theorem stranded_iff_unanswered_run :
    (∃ w : Mutexed (Fin 3), Transition.ReachesBy (step mutexCode sampleRounds) Answered
        (start (Fin 3) MutexLockPoint MutexUnlockPoint) w ∧ w.sleepers = 1 ∧ ¬ w.Stranded) ∧
    (∃ v : Mutexed (Fin 3), Transition.Reaches (step mutexCode sampleRounds)
        (start (Fin 3) MutexLockPoint MutexUnlockPoint) v ∧ v.Stranded) := by
  have one : ((Transition.run (Transition.guarded (step mutexCode sampleRounds)
      fun w label => decide (w.Answered label))
      (start (Fin 3) MutexLockPoint MutexUnlockPoint)
      (twoAnnounced ++ [(1, none)])).map sleepers) = some 1 := by decide +kernel
  obtain ⟨w, ran, sleeps⟩ := Option.map_eq_some_iff.mp one
  have answered : Transition.ReachesBy (step mutexCode sampleRounds) Answered
      (start (Fin 3) MutexLockPoint MutexUnlockPoint) w :=
    .of_guarded ran (fun v label passed => of_decide_eq_true passed) .start
  refine ⟨⟨w, answered, sleeps, stranded_iff_unanswered.1 w answered⟩, ?_⟩
  have two : ((Transition.run (step mutexCode sampleRounds)
      (start (Fin 3) MutexLockPoint MutexUnlockPoint) (twoAnnounced ++ [(1, none)])).bind fun w =>
        (w.step mutexCode sampleRounds (2, none)).map fun _ =>
          decide (w.Answered (2, none))) = some false := by decide +kernel
  obtain ⟨u, went, rest⟩ := Option.bind_eq_some_iff.mp two
  obtain ⟨next, stepped, unanswered⟩ := Option.map_eq_some_iff.mp rest
  have reached : Transition.Reaches (step mutexCode sampleRounds)
    (start (Fin 3) MutexLockPoint MutexUnlockPoint) u := .of_run went .start
  obtain ⟨v, later, stranded⟩ := stranded_iff_unanswered.2 u (2, none) next reached
    (of_decide_eq_false unanswered) stepped
  exact ⟨v, .trans (reached.next _ stepped) later, stranded⟩

/-- Three threads of which one is left asleep for ever: the mutex is free and the two
others have finished. -/
theorem sleeper_left_behind :
    ∃ (w : Mutexed (Fin 3)) (i : Fin 3), Transition.Reaches (step mutexCode sampleRounds)
        (start (Fin 3) MutexLockPoint MutexUnlockPoint) w ∧
      asleep mutexCode (w.thread i) = true ∧ w.state = 0 ∧
      ∀ j ≠ i, (w.thread j).point = .finished := by
  have left : ((Transition.run (step mutexCode sampleRounds)
      (start (Fin 3) MutexLockPoint MutexUnlockPoint)
      (twoAnnounced ++ [(1, none), (2, none)] ++ List.replicate 3 (0, none) ++
        [(0, some 1), (0, none)] ++ List.replicate 5 (1, none))).map fun w =>
          (w.state, asleep mutexCode (w.thread 2), (w.thread 0).point, (w.thread 1).point)) =
      some (0, true, .finished, .finished) := by decide +kernel
  obtain ⟨w, ran, places⟩ := Option.map_eq_some_iff.mp left
  simp only [Prod.mk.injEq] at places
  obtain ⟨free, sleeps, first, second⟩ := places
  refine ⟨w, 2, .of_run ran .start, sleeps, free, fun j other => ?_⟩
  match j with
  | 0 => exact first
  | 1 => exact second
  | 2 => exact absurd rfl other

end World

end OperationSystems.Sync
