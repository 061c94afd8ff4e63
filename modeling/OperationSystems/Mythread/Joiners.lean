import OperationSystems.Mythread.Stack

/-!
# Joiners and the single wake-up

A joiner falls asleep only while `completed` is clear, and the created thread wakes one
sleeper after it has set it. So nobody sleeps past that `futex_wake` exactly when at most
one joiner was asleep at it. All calls here are calls of `mythread_join`.
-/

namespace OperationSystems.Mythread

/-- What a call of `mythread_join` stores through `retval` when `start_routine` has
returned `value`. -/
def answer (value : Word) : Call → Option Word
  | .join true => some value
  | _ => none

/-- What is known of a `mythread_join` of an undetached thread, by where it is. -/
def OnWay (answer : Option Word) (completed : Bool) : CallPc → Prop
  | .joinLoadDetached | .loadCompleted | .wait | .asleep => True
  | .readRetval => completed = true
  | .exchange out | .unmap out => out = answer
  | .returned result out => result = 0 ∧ out = answer
  | .storeDetached | .testCompleted => False

namespace World

variable {ι : Type} {w next : World ι} {call : ι → Call} {value : Word}

/-- The created thread has executed its `futex_wake`. -/
def Woken (w : World ι) : Prop :=
  w.entry ≠ .running ∧ w.entry ≠ .storeCompleted ∧ w.entry ≠ .wake

/-- A sleeper only goes on when it is woken. -/
def Prompted (w : World ι) : Label ι → Prop
  | .entry _ => True
  | .caller i => w.caller i ≠ .asleep

/-- What joins and the created thread know of each other. -/
structure Joining (value : Word) (call : ι → Call) (w : World ι) : Prop where
  attached : w.detached = false
  returned : w.entry ≠ .running → w.retval = value
  started : w.completed = true → w.entry ≠ .running
  completed : w.entry ≠ .running → w.entry ≠ .storeCompleted → w.completed = true
  calls : ∀ i, OnWay (answer value (call i)) w.completed (w.caller i)

theorem Joining.start (joins : ∀ i, ∃ wanted, call i = .join wanted) :
    (start call).Joining value call where
  attached := rfl
  returned := fun other => absurd rfl other
  started := fun set => by cases set
  completed := fun other => absurd rfl other
  calls := fun i => by
    obtain ⟨wanted, join⟩ := joins i
    change OnWay _ _ (call i).begin
    rw [join]
    trivial

variable [DecidableEq ι] [Fintype ι]

/-- At its `futex_wake` the created thread finds at most one joiner asleep. -/
def FewAsleep (w : World ι) : Label ι → Prop
  | .entry _ => w.entry = .wake → w.sleepers.card ≤ 1
  | .caller _ => True

theorem Joining.stepEntry (joining : w.Joining value call) {woken : Finset ι}
    (stepped : w.stepEntry value woken = some next) : next.Joining value call := by
  obtain ⟨callers, _, detached, _⟩ := stepEntry_frame stepped
  have calls : ∀ {completed : Bool}, (w.completed = true → completed = true) → ∀ i,
      OnWay (answer value (call i)) completed (next.caller i) := by
    intro completed grows i
    obtain same | ⟨_, woken⟩ := callers i
    · have before := joining.calls i
      rw [same]
      cases place : w.caller i <;> rw [place] at before <;>
        first | exact grows before | exact before
    · rw [woken]
      trivial
  have attached : next.detached = false := detached.trans joining.attached
  obtain ⟨place, rfl⟩ | ⟨place, rfl⟩ | ⟨place, _, whole⟩ | ⟨place, rfl⟩ | ⟨place, rfl⟩ |
    ⟨place, rfl⟩ | ⟨place, rfl⟩ := stepEntry_cases stepped
  · refine ⟨attached, fun _ => rfl, fun _ => by rintro ⟨⟩, fun _ other => absurd rfl other,
      calls id⟩
  · exact ⟨attached, fun _ => joining.returned (by simp [place]), fun _ => by rintro ⟨⟩,
      fun _ _ => rfl, calls fun _ => rfl⟩
  all_goals
    have returned : w.retval = value := joining.returned (by simp [place])
    have completed : w.completed = true := joining.completed (by simp [place]) (by simp [place])
  · rw [whole] at attached ⊢
    exact ⟨attached, fun _ => returned, fun _ => by rintro ⟨⟩, fun _ _ => completed, calls id⟩
  · refine ⟨attached, fun _ => returned, fun _ => ?_, fun _ _ => completed, calls id⟩
    cases w.detached <;> rintro ⟨⟩
  · refine ⟨attached, fun _ => returned, fun _ => ?_, fun _ _ => completed, calls id⟩
    cases w.joined <;> rintro ⟨⟩
  · exact ⟨attached, fun _ => returned, fun _ => by rintro ⟨⟩, fun _ _ => completed, calls id⟩
  · exact ⟨attached, fun _ => returned, fun _ => by rintro ⟨⟩, fun _ _ => completed, calls id⟩

omit [Fintype ι] in
/-- What a step of a join can do: it moves that join alone, and a join falls asleep only
while `completed` is clear. -/
theorem Joining.stepCaller (joining : w.Joining value call) {i : ι}
    (stepped : w.stepCaller call i = some next) : next.Joining value call := by
  have goes : ∀ {pc}, OnWay (answer value (call i)) w.completed pc → ∀ j,
      OnWay (answer value (call j)) w.completed ((w.goto i pc).caller j) := by
    intro pc fits j
    by_cases same : j = i
    · subst same
      rw [caller_goto_self]
      exact fits
    · rw [caller_goto_of_ne same]
      exact joining.calls j
  have here := joining.calls i
  unfold World.stepCaller at stepped
  have kept : ∀ {pc}, OnWay (answer value (call i)) w.completed pc →
      (w.goto i pc).Joining value call := fun fits =>
    ⟨joining.attached, joining.returned, joining.started, joining.completed, goes fits⟩
  cases place : w.caller i <;> rw [place] at stepped here
  case storeDetached => exact here.elim
  case testCompleted => exact here.elim
  case returned => cases stepped
  all_goals obtain rfl := Option.some.inj stepped
  case joinLoadDetached =>
    apply kept
    rw [joining.attached]
    trivial
  case loadCompleted =>
    apply kept
    cases set : w.completed
    · trivial
    · exact rfl
  case wait =>
    apply kept
    cases w.completed <;> trivial
  case asleep => exact kept trivial
  case readRetval =>
    apply kept
    have returned : w.retval = value := joining.returned (joining.started here)
    change w.stored (call i) = answer value (call i)
    rw [← returned]
    cases call i with
    | join wanted => cases wanted <;> rfl
    | detach => rfl
  case exchange out =>
    refine ⟨joining.attached, joining.returned, joining.started, joining.completed, goes ?_⟩
    cases w.joined
    · exact here
    · exact ⟨rfl, here⟩
  case unmap out =>
    exact ⟨joining.attached, joining.returned, joining.started, joining.completed,
      goes ⟨rfl, here⟩⟩

/-- **The run lemma** for calls that all join. -/
theorem reached_joining (joins : ∀ i, ∃ wanted, call i = .join wanted)
    (reached : Transition.Reaches (step value call) (start call) w) : w.Joining value call := by
  refine reached.invariant (motive := Joining value call) (.start joins) ?_
  rintro w (woken | i) next joining _ stepped
  · exact joining.stepEntry stepped
  · exact joining.stepCaller stepped

/-! ## Nobody asleep -/

/-- A `futex_wake` of as many as sleep leaves nobody asleep. -/
theorem futexWake_all {n : ℕ} {woken : Finset ι} (few : w.sleepers.card ≤ n)
    (done : w.futexWake n woken = some next) (i : ι) : next.caller i ≠ .asleep := by
  unfold futexWake at done
  split_ifs at done with wakes
  obtain rfl := Option.some.inj done
  have all : woken = w.sleepers :=
    Finset.eq_of_subset_of_card_le wakes.1 ((min_eq_right few).symm.trans_le wakes.2.ge)
  intro asleep
  have asleep : (if i ∈ woken then .loadCompleted else w.caller i) = CallPc.asleep := asleep
  split_ifs at asleep with member
  exact member (all ▸ Finset.mem_filter.mpr ⟨Finset.mem_univ i, asleep⟩)

/-- A `futex_wake` of fewer than sleep leaves somebody asleep. -/
theorem futexWake_leaves {n : ℕ} {woken : Finset ι} (many : n < w.sleepers.card)
    (done : w.futexWake n woken = some next) : ∃ i, next.caller i = .asleep := by
  unfold futexWake at done
  split_ifs at done with wakes
  obtain rfl := Option.some.inj done
  have fewer : woken.card < w.sleepers.card := wakes.2.trans_lt (min_lt_of_left_lt many)
  obtain ⟨i, sleeps, left⟩ := Finset.exists_mem_notMem_of_card_lt_card fewer
  exact ⟨i, (if_neg left).trans (Finset.mem_filter.mp sleeps).2⟩

omit [Fintype ι] in
/-- A step of a call moves that call alone and leaves the created thread where it is; it
falls asleep only while `completed` is clear. -/
theorem stepCaller_frame {i : ι} (stepped : w.stepCaller call i = some next) :
    next.entry = w.entry ∧ (∀ j ≠ i, next.caller j = w.caller j) ∧
      (next.caller i = .asleep → w.completed = false) := by
  unfold stepCaller at stepped
  cases place : w.caller i <;> rw [place] at stepped
  case returned => cases stepped
  all_goals
    obtain rfl := Option.some.inj stepped
    refine ⟨rfl, fun j apart => caller_goto_of_ne apart, fun asleep => ?_⟩
    replace asleep := caller_goto_self.symm.trans asleep
  case wait =>
    cases set : w.completed
    · rfl
    · rw [set] at asleep
      cases asleep
  case joinLoadDetached | loadCompleted | testCompleted | exchange => split_ifs at asleep
  all_goals cases asleep

/-- The created thread does not go back before its `futex_wake`, and behind it the calls
are left alone. -/
theorem Woken.stepEntry (past : w.Woken) {woken : Finset ι}
    (stepped : w.stepEntry value woken = some next) : next.Woken ∧ next.caller = w.caller := by
  unfold Woken at past ⊢
  obtain ⟨place, rfl⟩ | ⟨place, rfl⟩ | ⟨place, _, whole⟩ | ⟨place, rfl⟩ | ⟨place, rfl⟩ |
    ⟨place, rfl⟩ | ⟨place, rfl⟩ := stepEntry_cases stepped
  · exact absurd place past.1
  · exact absurd place past.2.1
  · exact absurd place past.2.2
  · cases w.detached <;> simp
  · cases w.joined <;> simp
  · simp
  · simp

/-- With at most one joiner asleep at the `futex_wake`, nobody is asleep behind it. -/
theorem none_asleep (joins : ∀ i, ∃ wanted, call i = .join wanted)
    (reached : Transition.ReachesBy (step value call) FewAsleep (start call) w) :
    w.Woken → ∀ i, w.caller i ≠ .asleep := by
  refine (reached.invariant (motive := fun w => w.Joining value call ∧
    (w.Woken → ∀ i, w.caller i ≠ .asleep)) ⟨.start joins, fun past => absurd rfl past.1⟩ ?_).2
  rintro w (woken | i) next ⟨joining, awake⟩ few stepped
  · refine ⟨joining.stepEntry stepped, fun past i => ?_⟩
    by_cases before : w.Woken
    · rw [(before.stepEntry stepped).2]
      exact awake before i
    · change w.stepEntry value woken = some next at stepped
      unfold stepEntry at stepped
      cases place : w.entry <;> rw [place] at stepped
      case wake =>
        obtain ⟨after, done, rfl⟩ := Option.map_eq_some_iff.mp stepped
        exact futexWake_all (few place) done i
      case running =>
        obtain rfl := Option.some.inj stepped
        exact absurd rfl past.2.1
      case storeCompleted =>
        obtain rfl := Option.some.inj stepped
        exact absurd rfl past.2.2
      all_goals exact absurd ⟨by simp [place], by simp [place], by simp [place]⟩ before
  · obtain ⟨entry, others, falls⟩ := stepCaller_frame stepped
    refine ⟨joining.stepCaller stepped, fun past j => ?_⟩
    have past : w.Woken := by
      unfold Woken at past ⊢
      rwa [entry] at past
    by_cases same : j = i
    · subst same
      intro asleep
      have set : w.completed = true := joining.completed past.1 past.2.1
      cases set.symm.trans (falls asleep)
    · rw [others j same]
      exact awake past j

/-! ## Every joiner returns -/

/-- How many steps a join has at most ahead of it when `completed` is set. -/
def ahead : CallPc → ℕ
  | .joinLoadDetached | .wait => 5
  | .loadCompleted => 4
  | .readRetval => 3
  | .exchange _ => 2
  | .unmap _ => 1
  | _ => 0

omit [Fintype ι] in
/-- Behind the `futex_wake` a join that is awake and has not returned goes on. -/
theorem Joining.advance (joining : w.Joining value call) (past : w.Woken) {i : ι}
    (awake : w.caller i ≠ .asleep) (going : w.caller i ≠ .returned 0 (answer value (call i))) :
    ∃ next, w.stepCaller call i = some next ∧ next.caller i ≠ .asleep ∧
      ahead (next.caller i) < ahead (w.caller i) := by
  have completed : w.completed = true := joining.completed past.1 past.2.1
  have here := joining.calls i
  unfold World.stepCaller
  cases place : w.caller i <;> rw [place] at here
  case asleep => exact absurd place awake
  case storeDetached => exact here.elim
  case testCompleted => exact here.elim
  case returned result out =>
    rw [here.1, here.2] at place
    exact absurd place going
  all_goals
    refine ⟨_, rfl, ?_⟩
    simp only [goto, Function.update_self, joining.attached, completed]
  case exchange out => cases w.joined <;> simp [ahead]
  all_goals simp [ahead]

/-- A join that is awake behind the wake-up returns by steps of its own. -/
theorem joiner_returns (joining : w.Joining value call) (past : w.Woken) {i : ι}
    (awake : w.caller i ≠ .asleep) : ∃ v, Transition.ReachesBy (step value call) Prompted w v ∧
      v.caller i = .returned 0 (answer value (call i)) := by
  have advance : ∀ v, v.Joining value call ∧ v.Woken ∧ v.caller i ≠ .asleep →
      ¬ v.caller i = .returned 0 (answer value (call i)) → ∃ label next, Prompted v label ∧
        step value call v label = some next ∧
          (next.Joining value call ∧ next.Woken ∧ next.caller i ≠ .asleep) ∧
            ahead (next.caller i) < ahead (v.caller i) := by
    rintro v ⟨joining, past, awake⟩ going
    obtain ⟨next, stepped, stays, less⟩ := joining.advance past awake going
    refine ⟨.caller i, next, awake, stepped, ⟨joining.stepCaller stepped, ?_, stays⟩, less⟩
    unfold Woken at past ⊢
    rwa [(stepCaller_frame stepped).1]
  obtain ⟨v, reached, _, returned⟩ := Transition.exists_reachesBy_of_measure
    (fun v : World ι => v.Joining value call ∧ v.Woken ∧ v.caller i ≠ .asleep)
    (fun v => v.caller i = .returned 0 (answer value (call i))) (fun v => ahead (v.caller i))
    advance ⟨joining, past, awake⟩
  exact ⟨v, reached, returned⟩

/-- **When no joiner sleeps past the end of the thread.** In runs in which at most one
joiner is asleep when the created thread executes its `futex_wake`, nobody is asleep
behind it and every `mythread_join` can return 0 with what `start_routine` returned. In
every run in which more are asleep there, one of them stays asleep for good unless its
`futex_wait` returns without a wake-up. -/
theorem joiners_return_iff_few_asleep (joins : ∀ i, ∃ wanted, call i = .join wanted) :
    (∀ w, Transition.ReachesBy (step value call) FewAsleep (start call) w → w.Woken →
      ∀ i, w.caller i ≠ .asleep ∧ ∃ v, Transition.ReachesBy (step value call) Prompted w v ∧
        v.caller i = .returned 0 (answer value (call i))) ∧
    (∀ w label next, Transition.Reaches (step value call) (start call) w →
      ¬ w.FewAsleep label → w.step value call label = some next →
        next.Woken ∧ ∃ i, ∀ v, Transition.ReachesBy (step value call) Prompted next v →
          v.caller i = .asleep) := by
  refine ⟨fun w reached past i => ?_, fun w label next _ many stepped => ?_⟩
  · have awake := none_asleep joins reached past i
    exact ⟨awake, joiner_returns (reached_joining joins reached.reaches) past awake⟩
  · cases label with
    | caller i => exact absurd trivial many
    | entry woken =>
        simp only [FewAsleep, Classical.not_imp, not_le] at many
        obtain ⟨place, many⟩ := many
        change w.stepEntry value woken = some next at stepped
        unfold stepEntry at stepped
        rw [place] at stepped
        obtain ⟨after, done, rfl⟩ := Option.map_eq_some_iff.mp stepped
        obtain ⟨i, left⟩ := futexWake_leaves many done
        have past : ({ after with entry := .loadDetached } : World ι).Woken :=
          ⟨by rintro ⟨⟩, by rintro ⟨⟩, by rintro ⟨⟩⟩
        refine ⟨past, i, fun v later => ?_⟩
        refine (later.invariant (motive := fun v => v.Woken ∧ v.caller i = .asleep)
          ⟨past, left⟩ ?_).2
        rintro v (woken | j) next ⟨past, asleep⟩ prompted stepped
        · obtain ⟨past', callers⟩ := past.stepEntry stepped
          exact ⟨past', by rw [callers, asleep]⟩
        · obtain ⟨entry, others, _⟩ := stepCaller_frame stepped
          have apart : i ≠ j := by
            rintro rfl
            exact prompted asleep
          refine ⟨?_, (others i apart).trans asleep⟩
          unfold Woken at past ⊢
          rwa [entry]

/-- The theorem at one joiner, who is asleep at the `futex_wake`, and at two. -/
theorem joiners_return_iff_few_asleep_run :
    (∃ w, Transition.Reaches (step 7 fun _ : Fin 1 => .join true) (start fun _ => .join true) w ∧
      w.caller 0 = .returned 0 (some 7)) ∧
    (∃ w, Transition.Reaches (step 7 fun _ : Fin 2 => .join true) (start fun _ => .join true) w ∧
      w.Woken ∧ ∃ i, ∀ v, Transition.ReachesBy (step 7 fun _ => .join true) Prompted w v →
        v.caller i = .asleep) := by
  have one : ((Transition.run (Transition.guarded (step 7 fun _ : Fin 1 => .join true)
      fun w _ => decide (w.sleepers.card ≤ 1)) (start fun _ => .join true)
      (List.replicate 3 (.caller 0) ++ [.entry ∅, .entry ∅, .entry {0}])).map fun w =>
        w.entry) = some .loadDetached := by decide +kernel
  obtain ⟨w, ran, place⟩ := Option.map_eq_some_iff.mp one
  have few : Transition.ReachesBy (step 7 fun _ : Fin 1 => .join true) FewAsleep
      (start fun _ => .join true) w := by
    refine .of_guarded ran (fun v label passed => ?_) .start
    cases label with
    | entry woken => exact fun _ => of_decide_eq_true passed
    | caller i => trivial
  obtain ⟨v, later, returned⟩ := ((joiners_return_iff_few_asleep fun _ => ⟨true, rfl⟩).1 w few
    ⟨by simp [place], by simp [place], by simp [place]⟩ 0).2
  refine ⟨⟨v, few.reaches.trans later.reaches, returned⟩, ?_⟩
  have two : ((Transition.run (step 7 fun _ : Fin 2 => .join true) (start fun _ => .join true)
      (List.replicate 3 (.caller 0) ++ List.replicate 3 (.caller 1) ++
        [.entry ∅, .entry ∅])).bind fun w =>
          (w.step 7 (fun _ => .join true) (.entry {0})).map fun _ =>
            (w.entry, w.sleepers.card)) = some (.wake, 2) := by decide +kernel
  obtain ⟨u, went, rest⟩ := Option.bind_eq_some_iff.mp two
  obtain ⟨next, stepped, places⟩ := Option.map_eq_some_iff.mp rest
  simp only [Prod.mk.injEq] at places
  obtain ⟨wakes, both⟩ := places
  have reached : Transition.Reaches (step 7 fun _ : Fin 2 => .join true)
      (start fun _ => .join true) u := .of_run went .start
  refine ⟨next, reached.next _ stepped, (joiners_return_iff_few_asleep fun _ => ⟨true, rfl⟩).2 u
    (.entry {0}) next reached (fun few => ?_) stepped⟩
  have few : u.sleepers.card ≤ 1 := few wakes
  omega

/-- Two joiners of which one stays asleep behind the end of the thread. -/
theorem joiner_left_asleep :
    ¬ ∀ w, Transition.Reaches (step 0 fun _ : Fin 2 => .join true) (start fun _ => .join true) w →
      w.Woken → ∀ i, w.caller i ≠ .asleep := by
  intro awake
  have left : ((Transition.run (step 0 fun _ : Fin 2 => .join true) (start fun _ => .join true)
      (List.replicate 3 (.caller 0) ++ List.replicate 3 (.caller 1) ++
        [.entry ∅, .entry ∅, .entry {0}, .entry ∅, .entry ∅] ++
        List.replicate 4 (.caller 0))).map fun w => (w.entry, w.caller 1)) =
      some (.ended, .asleep) := by decide +kernel
  obtain ⟨w, ran, places⟩ := Option.map_eq_some_iff.mp left
  simp only [Prod.mk.injEq] at places
  exact awake w (.of_run ran .start) ⟨by simp [places.1], by simp [places.1], by simp [places.1]⟩ 1
    places.2

end World

end OperationSystems.Mythread
