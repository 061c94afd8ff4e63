import OperationSystems.Sync.Mutex
import OperationSystems.Sync.Spinlock

/-!
# Mutual exclusion and exact counting

A lock whose code treats the word as `Excludes` says lets its workers refine
`LockedWord`: nobody is between another thread's compare-exchange and its write of
0, and no increment of `counter` is lost. Both hand-written locks treat it so.
-/

namespace OperationSystems.Sync

open LockedWord

variable {ι LockPoint UnlockPoint : Type} {code : LockCode LockPoint UnlockPoint}

/-- How a lock treats its word: a lock call returns when it has taken the word from
0, and otherwise leaves it or exchanges values other than 0; an unlock call writes 0
in its first step and then lets the word alone. -/
structure LockCode.Excludes (code : LockCode LockPoint UnlockPoint) : Prop where
  takes : ∀ state point, (code.lock state point).2 = none →
    state = 0 ∧ (code.lock state point).1 ≠ 0
  passes : ∀ state point next, (code.lock state point).2 = some next →
    (code.lock state point).1 = state ∨ (state ≠ 0 ∧ (code.lock state point).1 ≠ 0)
  frees : ∀ state, (code.unlock state code.leave).1 = 0
  rests : ∀ state point, point ≠ code.leave → (code.unlock state point).1 = state
  departs : ∀ state point next, (code.unlock state point).2 = some next → next ≠ code.leave

theorem compareExchange_cases (word expected desired : ℤ) :
    (word = expected ∧ compareExchange word expected desired = (true, desired)) ∨
      (word ≠ expected ∧ compareExchange word expected desired = (false, word)) := by
  by_cases same : word = expected
  · exact .inl ⟨same, if_pos same⟩
  · exact .inr ⟨same, if_neg same⟩

/-- The mutex takes its word from 0 and gives it back as 0. -/
theorem mutexCode_excludes : mutexCode.Excludes where
  takes := by
    intro state point returned
    change (mutexLock state point).2 = none at returned
    change state = 0 ∧ (mutexLock state point).1 ≠ 0
    rcases compareExchange_cases state 0 1 with ⟨free, took⟩ | ⟨_, kept⟩
    · cases point with
      | trylock => exact ⟨free, by simp [mutexLock, mutexTrylock, took]⟩
      | retry => exact ⟨free, by simp [mutexLock, mutexTrylock, took]⟩
      | _ => cases returned
    · cases point with
      | trylock => simp [mutexLock, mutexTrylock, kept] at returned
      | retry => simp [mutexLock, mutexTrylock, kept] at returned
      | _ => cases returned
  passes := by
    intro state point next goesOn
    change (mutexLock state point).2 = some next at goesOn
    change (mutexLock state point).1 = state ∨ (state ≠ 0 ∧ (mutexLock state point).1 ≠ 0)
    have attempt : (mutexTrylock state).1 = false → (mutexTrylock state).2 = state := by
      rcases compareExchange_cases state 0 1 with ⟨_, took⟩ | ⟨_, kept⟩
      · simp [mutexTrylock, took]
      · simp [mutexTrylock, kept]
    cases point with
    | trylock =>
        simp only [mutexLock, Option.ite_none_left_eq_some, Bool.not_eq_true] at goesOn
        exact .inl (attempt goesOn.1)
    | retry =>
        simp only [mutexLock, Option.ite_none_left_eq_some, Bool.not_eq_true] at goesOn
        exact .inl (attempt goesOn.1)
    | raise =>
        rcases compareExchange_cases state 1 2 with ⟨one, raised⟩ | ⟨_, kept⟩
        · exact .inr ⟨by omega, by simp [mutexLock, raised]⟩
        · simp [mutexLock, kept]
    | _ => exact .inl rfl
  frees := fun _ => rfl
  rests := by
    intro state point behind
    cases point with
    | exchange => exact absurd rfl behind
    | wake => rfl
  departs := by
    intro state point next goesOn
    change (mutexUnlock state point).2 = some next at goesOn
    cases point with
    | exchange =>
        simp only [mutexUnlock, Option.ite_none_right_eq_some, Option.some.injEq] at goesOn
        rw [← goesOn.2]
        decide
    | wake => cases goesOn

/-- So does the spinlock. -/
theorem spinlockCode_excludes : spinlockCode.Excludes where
  takes := by
    intro state point returned
    change (spinlockLock state point).2 = none at returned
    change state = 0 ∧ (spinlockLock state point).1 ≠ 0
    rcases compareExchange_cases state 0 1 with ⟨free, took⟩ | ⟨_, kept⟩
    · cases point with
      | trylock => exact ⟨free, by simp [spinlockLock, spinlockTrylock, took]⟩
      | spin i spins yields =>
          by_cases again : i < spins
          · exact ⟨free, by simp [spinlockLock, spinlockTrylock, again, took]⟩
          · simp [spinlockLock, again] at returned
    · cases point with
      | trylock => simp [spinlockLock, spinlockTrylock, kept] at returned
      | spin i spins yields =>
          by_cases again : i < spins
          · simp [spinlockLock, spinlockTrylock, again, kept] at returned
          · simp [spinlockLock, again] at returned
  passes := by
    intro state point next goesOn
    change (spinlockLock state point).2 = some next at goesOn
    change (spinlockLock state point).1 = state ∨ (state ≠ 0 ∧ (spinlockLock state point).1 ≠ 0)
    left
    rcases compareExchange_cases state 0 1 with ⟨_, took⟩ | ⟨_, kept⟩
    · cases point with
      | trylock => simp [spinlockLock, spinlockTrylock, took] at goesOn
      | spin i spins yields =>
          by_cases again : i < spins
          · simp [spinlockLock, spinlockTrylock, again, took] at goesOn
          · simp [spinlockLock, again]
    · cases point with
      | trylock => simp [spinlockLock, spinlockTrylock, kept]
      | spin i spins yields =>
          simp only [spinlockLock, spinlockTrylock, kept]
          split_ifs <;> rfl
  frees := fun _ => rfl
  rests := by
    intro state point behind
    cases point
    exact absurd rfl behind
  departs := by
    intro state point next goesOn
    cases goesOn

/-! ## What a step changes -/

/-- How often a worker has incremented the counter. -/
def done (thread : Thread LockPoint UnlockPoint) : ℕ :=
  match thread.point with
  | .unlocking _ => thread.round + 1
  | _ => thread.round

/-- The loop variable of the worker against the number of rounds. -/
def Paced (rounds : ℕ) (thread : Thread LockPoint UnlockPoint) : Prop :=
  match thread.point with
  | .head => thread.round ≤ rounds
  | .finished => thread.round = rounds
  | _ => thread.round < rounds

theorem Paced.done_le {rounds : ℕ} {thread : Thread LockPoint UnlockPoint}
    (paced : Paced rounds thread) : done thread ≤ rounds := by
  unfold Paced at paced
  unfold done
  cases place : thread.point with
  | head =>
      rw [place] at paced
      exact paced
  | unlocking point =>
      rw [place] at paced
      exact Nat.succ_le_of_lt paced
  | finished =>
      rw [place] at paced
      exact le_of_eq paced
  | _ =>
      rw [place] at paced
      exact le_of_lt paced

namespace World

section Steps

variable {w next : World ι LockPoint UnlockPoint} {rounds : ι → ℕ}
  {effect : Effect LockPoint UnlockPoint}

theorem advance_paced {i : ι} (paced : Paced (rounds i) (w.thread i))
    (moved : advance code (rounds i) w.state w.counter (w.thread i) = some effect) :
    Paced (rounds i) effect.thread := by
  cases place : w.thread i with
  | mk round point =>
      rw [place] at moved paced
      cases point with
      | head =>
          obtain rfl := Option.some.inj moved
          by_cases more : round < rounds i
          · simp [Paced, more]
          · have all : round ≤ rounds i := paced
            simp only [more, ↓reduceIte]
            change round = rounds i
            omega
      | locking point =>
          obtain rfl := Option.some.inj moved
          cases (code.lock w.state point).2 <;> exact paced
      | loadCounter =>
          obtain rfl := Option.some.inj moved
          exact paced
      | storeCounter seen =>
          obtain rfl := Option.some.inj moved
          exact paced
      | unlocking point =>
          obtain rfl := Option.some.inj moved
          cases (code.unlock w.state point).2 with
          | none => exact Nat.succ_le_of_lt paced
          | some next => exact paced
      | finished => cases moved

variable [DecidableEq ι] [Fintype ι]

/-- A step of a thread, with the others as it leaves them. -/
theorem step_eq_some {i : ι} {sleeper : Option ι}
    (stepped : w.step code rounds (i, sleeper) = some next) :
    ∃ effect threads, advance code (rounds i) w.state w.counter (w.thread i) = some effect ∧
      w.woken code i sleeper = some threads ∧
      next = ⟨effect.state, effect.counter, Function.update threads i effect.thread⟩ := by
  obtain ⟨effect, moved, rest⟩ := Option.bind_eq_some_iff.mp stepped
  obtain ⟨threads, wakes, rfl⟩ := Option.map_eq_some_iff.mp rest
  exact ⟨effect, threads, moved, wakes, rfl⟩

/-- A step wakes nobody, or one sleeper, which then goes on in its lock call. -/
theorem woken_cases {i : ι} {sleeper : Option ι} {threads : ι → Thread LockPoint UnlockPoint}
    (wakes : w.woken code i sleeper = some threads) :
    (threads = w.thread ∧ (waking code (w.thread i) = true → ∀ j, asleep code (w.thread j) = false))
    ∨ ∃ j, waking code (w.thread i) = true ∧ asleep code (w.thread j) = true ∧
      threads = Function.update w.thread j ((w.thread j).resumed code) := by
  unfold woken at wakes
  by_cases waker : waking code (w.thread i) = true
  · rw [if_pos waker] at wakes
    cases sleeper with
    | some j =>
        dsimp only at wakes
        split_ifs at wakes with sleeps
        exact .inr ⟨j, waker, sleeps, (Option.some.inj wakes).symm⟩
    | none =>
        dsimp only at wakes
        split_ifs at wakes with nobody
        refine .inl ⟨(Option.some.inj wakes).symm, fun _ j => ?_⟩
        exact Bool.eq_false_iff.mpr fun sleeps => nobody ⟨j, sleeps⟩
  · rw [if_neg waker] at wakes
    exact .inl ⟨(Option.some.inj wakes).symm, fun waker' => absurd waker' waker⟩

end Steps

end World

/-! ## The workers as agents of the locked word -/

section View

variable [DecidableEq UnlockPoint] (code)

/-- Where a worker is as an agent of the locked word. -/
def phase (thread : Thread LockPoint UnlockPoint) : Phase ℤ :=
  match thread.point with
  | .loadCounter => .inside
  | .storeCounter seen => .read seen
  | .unlocking point => if point = code.leave then .written else .outside
  | _ => .outside

/-- The thread is between the successful compare-exchange of its lock call and the
write of 0 in its unlock call. -/
def Owns (thread : Thread LockPoint UnlockPoint) : Prop :=
  match thread.point with
  | .loadCounter => True
  | .storeCounter _ => True
  | .unlocking point => point = code.leave
  | _ => False

theorem phase_ne_outside_iff (thread : Thread LockPoint UnlockPoint) :
    phase code thread ≠ .outside ↔ Owns code thread := by
  unfold phase Owns
  split <;> simp_all

namespace World

def view (w : World ι LockPoint UnlockPoint) : State ι ℤ ℤ where
  word := w.state
  data := w.counter
  phase := fun i => phase code (w.thread i)
  rounds := fun i => done (w.thread i)

variable {w next : World ι LockPoint UnlockPoint} {rounds : ι → ℕ} {code}
  {effect : Effect LockPoint UnlockPoint} [DecidableEq ι]

/-- The locked word after a step of a worker. -/
def viewAfter (code : LockCode LockPoint UnlockPoint) (w : World ι LockPoint UnlockPoint) (i : ι)
    (effect : Effect LockPoint UnlockPoint) : State ι ℤ ℤ where
  word := effect.state
  data := effect.counter
  phase := Function.update (w.view code).phase i (phase code effect.thread)
  rounds := Function.update (w.view code).rounds i (done effect.thread)

/-- A step that is no increment. -/
theorem viewAfter_turn {i : ι} {place : Phase ℤ} (turned : phase code effect.thread = place)
    (count : done effect.thread = done (w.thread i)) :
    viewAfter code w i effect =
      { view code w with
        word := effect.state
        data := effect.counter
        phase := Function.update (w.view code).phase i place } := by
  unfold viewAfter
  rw [turned, count]
  congr 1
  exact Function.update_eq_self i (w.view code).rounds

/-- A step that leaves the worker where it is as an agent. -/
theorem viewAfter_stay {i : ι} (place : phase code effect.thread = phase code (w.thread i))
    (count : done effect.thread = done (w.thread i)) :
    viewAfter code w i effect =
      { view code w with word := effect.state, data := effect.counter } := by
  have same := Function.update_eq_self i (w.view code).phase
  rw [viewAfter_turn place count]
  change (⟨_, _, Function.update (w.view code).phase i ((w.view code).phase i), _⟩ :
    State ι ℤ ℤ) = _
  rw [same]

/-- Every step of a worker is an act on the locked word or invisible there. -/
theorem advance_refined (excludes : code.Excludes) {i : ι}
    (moved : advance code (rounds i) w.state w.counter (w.thread i) = some effect) :
    viewAfter code w i effect = w.view code ∨
      Move 0 (· + 1) (w.view code) (viewAfter code w i effect) := by
  cases place : w.thread i with
  | mk round point =>
      have was : (w.view code).phase i = phase code ⟨round, point⟩ := by simp [view, place]
      rw [place] at moved
      cases point with
      | head =>
          obtain rfl := Option.some.inj moved
          refine .inl ((viewAfter_stay ?_ ?_).trans rfl)
          · rw [place]
            dsimp only
            split_ifs <;> rfl
          · rw [place]
            dsimp only
            split_ifs <;> rfl
      | locking point =>
          obtain rfl := Option.some.inj moved
          cases after : (code.lock w.state point).2 with
          | none =>
              obtain ⟨free, taken⟩ := excludes.takes w.state point after
              rw [viewAfter_turn (show _ = Phase.inside from rfl) (by rw [place]; rfl)]
              exact .inr (.enter i _ was free taken)
          | some next =>
              rw [viewAfter_stay (by rw [place]; rfl) (by rw [place]; rfl)]
              rcases excludes.passes w.state point next after with same | ⟨taken, used⟩
              · left
                dsimp only
                rw [same]
                rfl
              · exact .inr (.mark _ taken used)
      | loadCounter =>
          obtain rfl := Option.some.inj moved
          rw [viewAfter_turn (show _ = Phase.read w.counter from rfl) (by rw [place]; rfl)]
          exact .inr (.read i was)
      | storeCounter seen =>
          obtain rfl := Option.some.inj moved
          have written : Move 0 (· + 1) (w.view code) _ := .write i seen was
          have count : (w.view code).rounds i = round := by simp [view, place, done]
          have after : phase code ⟨round, .unlocking code.leave⟩ = .written := if_pos rfl
          rw [count] at written
          unfold viewAfter
          rw [after]
          exact .inr written
      | unlocking point =>
          obtain rfl := Option.some.inj moved
          let before : Thread LockPoint UnlockPoint := ⟨round, .unlocking point⟩
          have count : done (before.afterUnlock (code.unlock w.state point).2) =
              done (w.thread i) := by
            rw [place]
            cases (code.unlock w.state point).2 <;> rfl
          have out : phase code (before.afterUnlock (code.unlock w.state point).2) = .outside := by
            cases after : (code.unlock w.state point).2 with
            | none => rfl
            | some next => exact if_neg (excludes.departs w.state point next after)
          rw [viewAfter_turn out count]
          by_cases first : point = code.leave
          · have written : (w.view code).phase i = .written := was.trans (if_pos first)
            dsimp only
            rw [first, excludes.frees]
            exact .inr (.leave i written)
          · have outside : (w.view code).phase i = .outside := was.trans (if_neg first)
            left
            dsimp only
            rw [excludes.rests _ _ first, ← outside, Function.update_eq_self]
            rfl
      | finished => cases moved

variable [Fintype ι]

/-- A sleeper is outside, woken or not, and has not finished its round. -/
theorem resumed_same {thread : Thread LockPoint UnlockPoint} (sleeps : asleep code thread = true) :
    phase code (thread.resumed code) = phase code thread ∧
      done (thread.resumed code) = done thread ∧
      ∀ rounds, Paced rounds thread → Paced rounds (thread.resumed code) := by
  obtain ⟨round, point⟩ := thread
  cases point with
  | locking point => exact ⟨rfl, rfl, fun _ => id⟩
  | _ => cases sleeps

/-- The others stay where they are as agents. -/
theorem woken_same {i : ι} {sleeper : Option ι} {threads : ι → Thread LockPoint UnlockPoint}
    (wakes : w.woken code i sleeper = some threads) (j : ι) :
    phase code (threads j) = phase code (w.thread j) ∧ done (threads j) = done (w.thread j) ∧
      ∀ rounds, Paced rounds (w.thread j) → Paced rounds (threads j) := by
  rcases woken_cases wakes with ⟨rfl, _⟩ | ⟨k, _, sleeps, rfl⟩
  · exact ⟨rfl, rfl, fun _ => id⟩
  · by_cases self : j = k
    · subst self
      rw [Function.update_self]
      exact resumed_same sleeps
    · rw [Function.update_of_ne self]
      exact ⟨rfl, rfl, fun _ => id⟩

/-- **The workers refine the locked word.** -/
theorem simulation (excludes : code.Excludes) :
    Transition.Simulation (step code rounds)
      (fun w : World ι LockPoint UnlockPoint => ∀ i, Paced (rounds i) (w.thread i)) (view code)
      (Move 0 (· + 1)) (Sound 0 (· + 1) 0) where
  simulates := by
    rintro w ⟨i, sleeper⟩ next paced _ stepped
    obtain ⟨effect, threads, moved, wakes, rfl⟩ := step_eq_some stepped
    have after : view code ⟨effect.state, effect.counter, Function.update threads i effect.thread⟩ =
        viewAfter code w i effect := by
      unfold view viewAfter
      congr 1
      · funext j
        by_cases self : j = i
        · subst self
          simp
        · simp only [Function.update_of_ne self]
          exact (woken_same wakes j).1
      · funext j
        by_cases self : j = i
        · subst self
          simp
        · simp only [Function.update_of_ne self]
          exact (woken_same wakes j).2.1
    refine ⟨fun j => ?_, ?_⟩
    · by_cases self : j = i
      · subst self
        simpa using advance_paced (paced j) moved
      · simpa [Function.update_of_ne self] using (woken_same wakes j).2.2 _ (paced j)
    · rw [after]
      exact advance_refined excludes moved
  preserves := fun _ _ sound moved => sound.move moved

/-- Both invariants in every reachable state. -/
theorem reached_sound (excludes : code.Excludes)
    (reached : Transition.Reaches (step code rounds) (start ι LockPoint UnlockPoint) w) :
    (∀ i, Paced (rounds i) (w.thread i)) ∧ Sound 0 (· + 1) 0 (w.view code) :=
  (simulation excludes).invariant (fun _ => Nat.zero_le _)
    (.start (fun _ => rfl) rfl rfl fun _ => rfl) reached

omit [DecidableEq ι] in
/-- The counter is the number of increments. -/
theorem counter_eq (sound : Sound 0 (· + 1) 0 (w.view code)) :
    w.counter = Tally.tally done w.thread := by
  have counted := sound.counted
  rw [add_right_iterate] at counted
  simpa [view, Tally.tally] using counted

/-- At most one thread is between the compare-exchange of its lock call and the write
of 0 in its unlock call, and the word is 0 exactly when none is. -/
def Exclusive (code : LockCode LockPoint UnlockPoint) (w : World ι LockPoint UnlockPoint) : Prop :=
  (∀ i j, Owns code (w.thread i) → Owns code (w.thread j) → i = j) ∧
    (w.state = 0 ↔ ∀ i, ¬ Owns code (w.thread i))

omit [DecidableEq ι] in
theorem exclusive_of_sound (sound : Sound 0 (· + 1) 0 (w.view code)) : w.Exclusive code := by
  refine ⟨fun i j first second => ?_, sound.free_iff.trans (forall_congr' fun i => ?_)⟩
  · exact sound.alone i j ((phase_ne_outside_iff code _).mpr first)
      ((phase_ne_outside_iff code _).mpr second)
  · rw [← phase_ne_outside_iff code (w.thread i), not_not]
    rfl

/-- The counter never passes the number of rounds, so while that fits in a
`long long` no increment overflows. -/
theorem counter_le (excludes : code.Excludes)
    (reached : Transition.Reaches (step code rounds) (start ι LockPoint UnlockPoint) w) :
    w.counter ≤ ∑ i, rounds i := by
  obtain ⟨paced, sound⟩ := reached_sound excludes reached
  rw [counter_eq sound]
  exact Int.ofNat_le.mpr (Finset.sum_le_sum fun i _ => (paced i).done_le)

/-- When all threads have finished, the counter is the number of rounds. -/
theorem counter_finished (excludes : code.Excludes)
    (reached : Transition.Reaches (step code rounds) (start ι LockPoint UnlockPoint) w)
    (finished : ∀ i, (w.thread i).point = .finished) : w.counter = ∑ i, rounds i := by
  obtain ⟨paced, sound⟩ := reached_sound excludes reached
  rw [counter_eq sound]
  refine congrArg Int.ofNat (Finset.sum_congr rfl fun i _ => ?_)
  have all := paced i
  unfold Paced at all
  unfold done
  rw [finished i] at all ⊢
  exact all

/-- **Mutual exclusion and no lost update.** With either lock and in every state of
every run of `n` threads that do `k` rounds each, one thread at most is inside, the
word is 0 exactly while none is, and when all threads have finished `counter` is
`n * k`. -/
theorem exclusion_and_count (n k : ℕ) :
    (∀ w, Transition.Reaches (step mutexCode fun _ => k)
        (start (Fin n) MutexLockPoint MutexUnlockPoint) w →
      w.Exclusive mutexCode ∧ ((∀ i, (w.thread i).point = .finished) → w.counter = n * k)) ∧
    (∀ w, Transition.Reaches (step spinlockCode fun _ => k)
        (start (Fin n) SpinlockLockPoint SpinlockUnlockPoint) w →
      w.Exclusive spinlockCode ∧
        ((∀ i, (w.thread i).point = .finished) → w.counter = n * k)) := by
  have total : ((∑ _i : Fin n, k : ℕ) : ℤ) = n * k := by simp
  refine ⟨fun w reached => ⟨?_, fun finished => ?_⟩, fun w reached => ⟨?_, fun finished => ?_⟩⟩
  · exact exclusive_of_sound (reached_sound mutexCode_excludes reached).2
  · exact (counter_finished mutexCode_excludes reached finished).trans total
  · exact exclusive_of_sound (reached_sound spinlockCode_excludes reached).2
  · exact (counter_finished spinlockCode_excludes reached finished).trans total

/-- The theorem at two threads and one round each. With the mutex the second thread
falls asleep and is woken. -/
theorem exclusion_and_count_run :
    (∃ w, Transition.Reaches (step mutexCode fun _ => 1)
        (start (Fin 2) MutexLockPoint MutexUnlockPoint) w ∧
      w.Exclusive mutexCode ∧ w.counter = 2) ∧
    (∃ w, Transition.Reaches (step spinlockCode fun _ => 1)
        (start (Fin 2) SpinlockLockPoint SpinlockUnlockPoint) w ∧
      w.Exclusive spinlockCode ∧ w.counter = 2) := by
  have slept : ((Transition.run (step mutexCode fun _ => 1)
      (start (Fin 2) MutexLockPoint MutexUnlockPoint)
      (List.replicate 2 (0, none) ++ List.replicate 5 (1, none) ++ List.replicate 3 (0, none) ++
        [(0, some 1), (0, none)] ++ List.replicate 5 (1, none))).map fun w =>
          ((w.thread 0).point, (w.thread 1).point)) = some (.finished, .finished) := by
    decide +kernel
  have spun : ((Transition.run (step spinlockCode fun _ => 1)
      (start (Fin 2) SpinlockLockPoint SpinlockUnlockPoint)
      (List.replicate 2 (0, none) ++ List.replicate 4 (1, none) ++ List.replicate 4 (0, none) ++
        List.replicate 5 (1, none))).map fun w =>
          ((w.thread 0).point, (w.thread 1).point)) = some (.finished, .finished) := by
    decide +kernel
  obtain ⟨w, ran, places⟩ := Option.map_eq_some_iff.mp slept
  obtain ⟨v, turned, spots⟩ := Option.map_eq_some_iff.mp spun
  simp only [Prod.mk.injEq] at places spots
  obtain ⟨exclusive, counted⟩ := (exclusion_and_count 2 1).1 w (.of_run ran .start)
  obtain ⟨exclusive', counted'⟩ := (exclusion_and_count 2 1).2 v (.of_run turned .start)
  refine ⟨⟨w, .of_run ran .start, exclusive, counted ?_⟩,
    ⟨v, .of_run turned .start, exclusive', counted' ?_⟩⟩
  · exact Fin.forall_fin_two.mpr places
  · exact Fin.forall_fin_two.mpr spots

end World

end View

end OperationSystems.Sync
