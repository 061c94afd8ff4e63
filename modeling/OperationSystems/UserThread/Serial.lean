import OperationSystems.UserThread.Completion

/-!
# Uthreads run one after the other

A uthread that yields goes on itself, so a uthread is only left when it has returned: the
log of a run is the log of one uthread behind that of another. Who comes next is the
uppermost of the stack of jobs, the one created last of those that have not run.
-/

namespace OperationSystems.UserThread

/-- A uthread's call of `start_routine` from beginning to end. -/
structure Run where
  uthread : Ptr
  arg : Word
  yields : ℕ
  result : Word

/-- What is logged of it. -/
def Run.events (run : Run) : List Event :=
  ran run.uthread run.arg run.yields ++ [.returned run.uthread run.result]

namespace Roster

variable {d next : Roster} {t self : Ptr} {u : Uthread} {runs : List Run} {answer : Answer}

/-- The complete runs, and the one that has begun. -/
structure Logged (d : Roster) (runs : List Run) : Prop where
  distinct : (runs.map Run.uthread).Nodup
  idle : d.running.owner = none → d.events = runs.flatMap Run.events
  busy : ∀ self, d.running.owner = some self → self ∉ runs.map Run.uthread ∧
    (d.running.point = .entry ∧ d.events = runs.flatMap Run.events ++ [.resumed self] ∨
      (∃ code, d.running.point = .code code) ∧
        ∃ arg yields, d.events = runs.flatMap Run.events ++ ran self arg yields)

theorem Logged.start (main : Code) : (start main).Logged [] :=
  ⟨List.nodup_nil, fun _ => rfl, nofun⟩

/-- Who has run is in the log. -/
theorem history_ne_nil (events : d.events = runs.flatMap Run.events)
    (member : t ∈ runs.map Run.uthread) : d.history t ≠ [] := by
  obtain ⟨run, present, rfl⟩ := List.mem_map.mp member
  have event : Event.resumed run.uthread ∈ d.events := by
    rw [events]
    refine List.mem_flatMap.mpr ⟨run, present, ?_⟩
    simp [Run.events, ran]
  have own : Event.resumed run.uthread ∈ d.history run.uthread :=
    List.mem_filter.mpr ⟨event, by simp [Event.uthread]⟩
  exact List.ne_nil_of_mem own

/-- The uppermost job begins to run. -/
theorem launch_logged {rest : List Ptr} (distinct : (runs.map Run.uthread).Nodup)
    (events : d.events = runs.flatMap Run.events) (unborn : d.history t = [])
    (done : d.launch t rest = some next) : next.Logged runs := by
  obtain ⟨u, _, rfl⟩ := Option.map_eq_some_iff.mp done
  refine ⟨distinct, nofun, fun self is => ?_⟩
  obtain rfl := Option.some.inj is
  refine ⟨fun member => history_ne_nil events member unborn, .inl ⟨rfl, ?_⟩⟩
  exact congrArg (· ++ _) events

/-- A step that logs nothing and leaves the context where it is, in main or in user code. -/
theorem Logged.congr (logged : d.Logged runs) (owner : next.running.owner = d.running.owner)
    (events : next.events = d.events)
    (point : (∃ code, d.running.point = .code code) ∧ (∃ code, next.running.point = .code code) ∨
      d.running.owner = none) : next.Logged runs := by
  refine ⟨logged.distinct, fun idle => ?_, fun self busy => ?_⟩
  · rw [events]
    exact logged.idle (owner ▸ idle)
  · rw [owner] at busy
    obtain ⟨out, ⟨entry, _⟩ | ⟨_, log⟩⟩ := logged.busy self busy
    · rcases point with ⟨⟨code, place⟩, _⟩ | none
      · cases entry.symm.trans place
      · cases none.symm.trans busy
    · rcases point with ⟨_, place⟩ | none
      · exact ⟨out, .inr ⟨place, by rwa [events]⟩⟩
      · cases none.symm.trans busy

/-- A creation logs nothing and leaves its caller running. -/
theorem create_same (d : Roster) (t : Ptr) (startRoutine : Word → Code) (arg : Word)
    (after : Bool → Code) (answer : Answer) :
    (d.create t startRoutine arg after answer).running.owner = d.running.owner ∧
      (d.create t startRoutine arg after answer).events = d.events ∧
      (∃ code, (d.create t startRoutine arg after answer).running.point = .code code) ∧
      ((d.create t startRoutine arg after answer).jobs = d.jobs ∨
        (d.create t startRoutine arg after answer).jobs = t :: d.jobs) := by
  cases answer with
  | granted => exact ⟨rfl, rfl, ⟨_, rfl⟩, .inr rfl⟩
  | noMemory => exact ⟨rfl, rfl, ⟨_, rfl⟩, .inl rfl⟩
  | noContext => exact ⟨rfl, rfl, ⟨_, rfl⟩, .inl rfl⟩

/-- What main does to the log. -/
theorem Logged.step_main (logged : d.Logged runs) (sound : d.Sound)
    (owner : d.running.owner = none) (done : d.step answer = some next) : next.Logged runs := by
  have kept : d.Kept none := owner ▸ sound.kept
  unfold Roster.step at done
  cases point : d.running.point with
  | code code =>
      rw [point, owner] at done
      cases code with
      | create t startRoutine arg after =>
          obtain rfl := Option.some.inj done
          obtain ⟨same, events, _⟩ := d.create_same t startRoutine arg after answer
          exact logged.congr same events (.inr owner)
      | runAll after =>
          obtain rfl := Option.some.inj done
          exact logged.congr rfl rfl (.inr owner)
      | done result => cases done
      | run => cases done
      | yield => cases done
  | looping after =>
      simp only [point, owner] at done
      cases jobs : d.jobs with
      | nil =>
          simp only [jobs] at done
          obtain rfl := Option.some.inj done
          exact logged.congr rfl rfl (.inr owner)
      | cons t rest =>
          simp only [jobs] at done
          obtain ⟨_, _, _, _, unborn⟩ := kept.jobs t (jobs ▸ List.mem_cons_self)
          have events : ({ d with waiting := some (t, after) } : Roster).events =
            runs.flatMap Run.events := logged.idle owner
          exact launch_logged logged.distinct events unborn done
  | resumed t after =>
      rw [point, owner] at done
      obtain ⟨u, here, rfl⟩ := Option.map_eq_some_iff.mp done
      obtain ⟨_, _, _, running, events⟩ := d.free_same here
      have same : ((d.free t u).goto (.looping after)).running.owner = d.running.owner := by
        change (d.free t u).running.owner = _
        rw [running]
      exact logged.congr same events (.inr owner)
  | entry =>
      rw [point, owner] at done
      cases done
  | ended =>
      rw [point, owner] at done
      cases done

/-- A uthread that returns has a complete run in the log. -/
theorem Logged.finished (logged : d.Logged runs) (out : self ∉ runs.map Run.uthread) {arg : Word}
    {yields : ℕ} (log : d.events = runs.flatMap Run.events ++ ran self arg yields)
    (u : Uthread) (result : Word) :
    (d.finish self u result).events =
        (runs ++ [Run.mk self arg yields result]).flatMap Run.events ∧
      ((runs ++ [Run.mk self arg yields result]).map Run.uthread).Nodup := by
  constructor
  · change d.events ++ [.returned self result] = _
    rw [log, List.flatMap_append, List.append_assoc]
    simp [Run.events]
  · rw [List.map_append, List.nodup_append]
    refine ⟨logged.distinct, List.nodup_singleton _, fun x member y last => ?_⟩
    obtain rfl := List.mem_singleton.mp last
    rintro rfl
    exact out member

/-- What a uthread does to the log: when it returns, its run is complete. -/
theorem Logged.step_uthread (logged : d.Logged runs) (sound : d.Sound)
    (owner : d.running.owner = some self) (done : d.step answer = some next) :
    ∃ runs, next.Logged runs := by
  obtain ⟨off, ⟨u, here, created, _, underway⟩, _⟩ := sound.uthread self owner
  have kept : d.Kept (some self) := owner ▸ sound.kept
  obtain ⟨out, log⟩ := logged.busy self owner
  unfold Underway at underway
  unfold Roster.step at done
  cases point : d.running.point with
  | looping after =>
      rw [point] at underway
      exact underway.elim
  | resumed t after =>
      rw [point] at underway
      exact underway.elim
  | ended =>
      rw [point] at underway
      exact underway.elim
  | entry =>
      rw [point, owner] at done
      obtain ⟨_, log⟩ : d.running.point = .entry ∧
          d.events = runs.flatMap Run.events ++ [.resumed self] := by
        rcases log with began | ⟨⟨code, place⟩, _⟩
        · exact began
        · cases point.symm.trans place
      obtain ⟨v, _, rest⟩ := Option.bind_eq_some_iff.mp done
      obtain ⟨startRoutine, _, rest⟩ := Option.bind_eq_some_iff.mp rest
      obtain rfl := Option.some.inj rest
      refine ⟨runs, logged.distinct, fun idle => ?_, fun x is => ?_⟩
      · cases owner.symm.trans idle
      · obtain rfl := Option.some.inj (owner.symm.trans is)
        refine ⟨out, .inr ⟨⟨_, rfl⟩, v.arg, 0, ?_⟩⟩
        change d.events ++ [.entered self v.arg] = _
        rw [log, List.append_assoc]
        rfl
  | code code =>
      rw [point] at underway
      obtain ⟨worker, _, leads, history⟩ := underway
      obtain ⟨_, arg, yields, log⟩ : (∃ code, d.running.point = .code code) ∧
          ∃ arg yields, d.events = runs.flatMap Run.events ++ ran self arg yields := by
        rcases log with ⟨entry, _⟩ | goes
        · cases entry.symm.trans point
        · exact goes
      rw [point, owner] at done
      cases code with
      | run => exact worker.elim
      | runAll => exact worker.elim
      | create t startRoutine arg after =>
          obtain rfl := Option.some.inj done
          obtain ⟨same, events, place, _⟩ := d.create_same t startRoutine arg after answer
          exact ⟨runs, logged.congr same events (.inl ⟨⟨_, point⟩, place⟩)⟩
      | yield after =>
          obtain rfl := Option.some.inj done
          refine ⟨runs, logged.distinct, fun idle => ?_, fun x is => ?_⟩
          · cases owner.symm.trans idle
          · obtain rfl := Option.some.inj (owner.symm.trans is)
            refine ⟨out, .inr ⟨⟨_, rfl⟩, arg, yields + 1, ?_⟩⟩
            change d.events ++ [.resumed self] = _
            rw [log, List.append_assoc, ran_succ]
      | done result =>
          obtain ⟨v, there, rest⟩ := Option.bind_eq_some_iff.mp done
          obtain rfl := Option.some.inj (here.symm.trans there)
          obtain ⟨events, distinct⟩ := logged.finished out log u result
          refine ⟨runs ++ [Run.mk self arg yields result], ?_⟩
          cases jobs : d.jobs with
          | nil =>
              simp only [jobs] at rest
              obtain ⟨⟨t, after⟩, _, rfl⟩ := Option.map_eq_some_iff.mp rest
              exact ⟨distinct, fun _ => events, nofun⟩
          | cons t others =>
              simp only [jobs] at rest
              have kept' := kept.finish result off here created leads history
              obtain ⟨_, _, _, _, unborn⟩ := kept'.jobs t (jobs ▸ List.mem_cons_self)
              exact launch_logged distinct events unborn rest

/-- **The step lemma.** The log stays one of complete runs and of the one that has begun. -/
theorem Logged.step (logged : d.Logged runs) (sound : d.Sound)
    (done : d.step answer = some next) : ∃ runs, next.Logged runs := by
  cases owner : d.running.owner with
  | none => exact ⟨runs, logged.step_main sound owner done⟩
  | some self => exact logged.step_uthread sound owner done

/-! ## Who comes next -/

/-- What a step does to the stack of jobs and to who runs. -/
def Stacked (d next : Roster) : Prop :=
  next.jobs = d.jobs ∧ (next.running.owner = d.running.owner ∨ next.running.owner = none) ∨
    (∃ t startRoutine arg after, d.running.point = .code (.create t startRoutine arg after) ∧
      next.jobs = t :: d.jobs ∧ next.running.owner = d.running.owner) ∨
    ∃ t, d.jobs = t :: next.jobs ∧ next.running = ⟨some t, .entry⟩

/-- Who is started was the uppermost job. -/
theorem launch_stacked {rest : List Ptr} {e : Roster} (jobs : d.jobs = t :: rest)
    (done : e.launch t rest = some next) : d.Stacked next := by
  obtain ⟨u, _, rfl⟩ := Option.map_eq_some_iff.mp done
  exact .inr (.inr ⟨t, jobs, rfl⟩)

/-- **The step lemma** of the stack of jobs. -/
theorem step_stacked (done : d.step answer = some next) : d.Stacked next := by
  unfold Roster.step at done
  split at done
  next _ _ t startRoutine arg after place =>
    obtain rfl := Option.some.inj done
    obtain ⟨owner, _, _, same | pushed⟩ := d.create_same t startRoutine arg after answer
    · exact .inl ⟨same, .inl owner⟩
    · exact .inr (.inl ⟨t, startRoutine, arg, after, place, pushed, owner⟩)
  next after _ _ =>
    obtain rfl := Option.some.inj done
    exact .inl ⟨rfl, .inl rfl⟩
  next after _ _ =>
    cases jobs : d.jobs with
    | nil =>
        simp only [jobs] at done
        obtain rfl := Option.some.inj done
        exact .inl ⟨rfl, .inl rfl⟩
    | cons t rest =>
        simp only [jobs] at done
        exact launch_stacked jobs done
  next t after _ owner =>
    obtain ⟨u, here, rfl⟩ := Option.map_eq_some_iff.mp done
    obtain ⟨_, _, jobs, running, _⟩ := d.free_same here
    refine .inl ⟨jobs, .inl ?_⟩
    change (d.free t u).running.owner = _
    rw [running]
  next self _ _ =>
    obtain ⟨u, _, rest⟩ := Option.bind_eq_some_iff.mp done
    obtain ⟨startRoutine, _, rest⟩ := Option.bind_eq_some_iff.mp rest
    obtain rfl := Option.some.inj rest
    exact .inl ⟨rfl, .inl rfl⟩
  next after self _ _ =>
    obtain rfl := Option.some.inj done
    exact .inl ⟨rfl, .inl rfl⟩
  next result self _ _ =>
    obtain ⟨u, _, rest⟩ := Option.bind_eq_some_iff.mp done
    cases jobs : d.jobs with
    | nil =>
        simp only [jobs] at rest
        obtain ⟨⟨t, after⟩, _, rfl⟩ := Option.map_eq_some_iff.mp rest
        exact .inl ⟨rfl, .inr rfl⟩
    | cons t others =>
        simp only [jobs] at rest
        exact launch_stacked jobs rest
  next => cases done

end Roster

namespace World

variable {w : World} {main : Code}

/-- **Uthreads run one after the other, the newest first.** Where main calls only
`uthread_create` and `uthread_run_all`, uthreads only `uthread_create` and `uthread_yield`,
and no object is created twice, the log is at any time that of complete runs of different
uthreads, one behind the other, and of the uthread that runs; and the ready queue is a
stack: a uthread that is created is put on top, and nobody is switched to but the uppermost
one, or main. -/
theorem runs_to_completion (isMain : main.Main)
    (distinct : ∀ v, Transition.Reaches World.step (World.start main) v → v.Distinct)
    (reached : Transition.Reaches World.step (World.start main) w) :
    (∃ runs : List Run, (runs.map Run.uthread).Nodup ∧
      (w.running.owner = none → w.events = runs.flatMap Run.events) ∧
      ∀ self, w.running.owner = some self → self ∉ runs.map Run.uthread ∧
        (w.events = runs.flatMap Run.events ++ [.resumed self] ∨
          ∃ arg yields, w.events = runs.flatMap Run.events ++ ran self arg yields)) ∧
    ∃ jobs, w.Queue jobs ∧ ∀ answer next, w.step answer = some next → ∃ left, next.Queue left ∧
      (left = jobs ∧ (next.running.owner = w.running.owner ∨ next.running.owner = none) ∨
        (∃ t startRoutine arg after, w.running.point = .code (.create t startRoutine arg after) ∧
          left = t :: jobs ∧ next.running.owner = w.running.owner) ∨
        ∃ t, jobs = t :: left ∧ next.running = ⟨some t, .entry⟩) := by
  obtain ⟨d, serves, sound, runs, logged⟩ := reached_keeps
    (motive := fun d => ∃ runs, d.Logged runs) distinct
    (fun _ _ _ _ _ sound _ _ holds done => holds.elim fun _ logged => logged.step sound done)
    ⟨_, .start main, .start isMain, [], .start main⟩ reached
  have running := serves.running
  refine ⟨⟨runs, logged.distinct, fun idle => ?_, fun self busy => ?_⟩, d.jobs, serves.queue,
    fun answer next stepped => ?_⟩
  · rw [← serves.events]
    exact logged.idle (running ▸ idle)
  · rw [← serves.events]
    obtain ⟨out, ⟨_, log⟩ | ⟨_, log⟩⟩ := logged.busy self (running ▸ busy)
    · exact ⟨out, .inl log⟩
    · exact ⟨out, .inr log⟩
  · obtain ⟨stuck, _⟩ | ⟨next', e, stepped', moved, serves', _⟩ :=
      serves.step sound (distinct w reached) answer
    · cases stuck.symm.trans stepped
    obtain rfl := Option.some.inj (stepped'.symm.trans stepped)
    refine ⟨e.jobs, serves'.queue, ?_⟩
    rw [← running, ← serves'.running]
    exact Roster.step_stacked moved

/-- The theorem when `uthread_run_all` has run `nested`: the uthread that was created by the
other one has run behind it, although that one has yielded. -/
theorem runs_to_completion_run : ∃ w : World,
    Transition.Reaches World.step (World.start nested) w ∧
      ∃ runs : List Run, (runs.map Run.uthread).Nodup ∧
        w.events = runs.flatMap Run.events ∧ w.events =
          [.resumed 0, .entered 0 0, .resumed 0, .returned 0 7,
            .resumed 1, .entered 1 8, .resumed 1, .returned 1 8] := by
  have ran : ((Transition.run World.step (World.start nested)
      (List.replicate 12 .granted)).map fun w => (w.running.owner, w.events)) =
      some (none, [.resumed 0, .entered 0 0, .resumed 0, .returned 0 7,
        .resumed 1, .entered 1 8, .resumed 1, .returned 1 8]) := by
    decide +kernel
  obtain ⟨w, went, seen⟩ := Option.map_eq_some_iff.mp ran
  simp only [Prod.mk.injEq] at seen
  have reached : Transition.Reaches World.step (World.start nested) w := .of_run went .start
  obtain ⟨⟨runs, once, idle, _⟩, _⟩ :=
    runs_to_completion nested_main (fun _ => nested_distinct) reached
  exact ⟨w, reached, runs, once, idle seen.1, seen.2⟩

end World

end OperationSystems.UserThread
