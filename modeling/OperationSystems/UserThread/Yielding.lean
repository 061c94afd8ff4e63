import OperationSystems.UserThread.Queue

/-!
# Yielding to oneself

main creates uthreads and runs them all; the uthreads create others and yield. Whoever
runs then is `current`, so `uthread_yield` pushes its caller at the head of the queue and
pops the same uthread from there.
-/

namespace OperationSystems.UserThread

/-- Only `uthread_create` and `uthread_yield` are called, by this code and by the uthreads
that it creates. -/
def Code.Worker : Code → Prop
  | .done _ => True
  | .create _ startRoutine arg next =>
      (startRoutine arg).Worker ∧ ∀ created, (next created).Worker
  | .yield next => next.Worker
  | .run _ _ | .runAll _ => False

/-- Only `uthread_create` and `uthread_run_all` are called, and the uthreads are workers. -/
def Code.Main : Code → Prop
  | .done _ => True
  | .create _ startRoutine arg next =>
      (startRoutine arg).Worker ∧ ∀ created, (next created).Main
  | .runAll next => next.Main
  | .run _ _ | .yield _ => False

/-- Where main can be if it calls nothing but `uthread_create` and `uthread_run_all`. -/
def Point.InMain : Point → Prop
  | .code next | .looping next | .resumed _ next => next.Main
  | .entry | .ended => False

/-- Where a uthread can be. -/
def Point.InUthread : Point → Prop
  | .code next => next.Worker
  | .entry | .ended => True
  | .looping _ | .resumed _ _ => False

/-- The uthread that is switched to. -/
def Event.resumption : Event → Option Ptr
  | .resumed t => some t
  | .entered _ _ | .returned _ _ => none

namespace World

variable {w next : World} {t : Ptr} {u : Uthread} {main code : Code} {answer : Answer}

/-- Every saved context is its owner's. -/
structure Hosted (w : World) : Prop where
  routines : ∀ t u startRoutine, w.heap t = some u → u.startRoutine = some startRoutine →
    (startRoutine u.arg).Worker
  uthreads : ∀ t u context, w.heap t = some u → u.context = some context →
    context.owner = some t ∧ context.point.InUthread
  main : ∀ context, w.mainCtx = some context → context.owner = none ∧ context.point.InMain

/-- A uthread that runs is `current`. -/
structure Served (w : World) : Prop extends w.Hosted where
  running : match w.running.owner with
    | none => w.running.point.InMain
    | some self => w.current = some self ∧ w.running.point.InUthread

/-- main is served before its first call. -/
theorem Served.start (isMain : main.Main) : (start main).Served where
  routines := fun _ _ _ held => by cases held
  uthreads := fun _ _ _ held => by cases held
  main := fun _ held => by cases held
  running := isMain

/-- What keeps contexts, routines and arguments keeps every context where it belongs. -/
theorem Hosted.keeps {v : World} (hosted : w.Hosted) (kept : w.Keeps v) : v.Hosted where
  routines := by
    intro t u startRoutine here routine
    obtain ⟨u', there, _, routine', arg⟩ := kept.2.2 t u here
    rw [arg]
    exact hosted.routines t u' startRoutine there (routine'.symm.trans routine)
  uthreads := by
    intro t u context here saved
    obtain ⟨u', there, same, _⟩ := kept.2.2 t u here
    exact hosted.uthreads t u' context there (same.symm.trans saved)
  main := kept.2.1 ▸ hosted.main

/-- Whatever is loaded goes on where it was saved: in main, or in the uthread that `current`
names. -/
theorem Hosted.loadContext {load : Option Ptr} (hosted : w.Hosted)
    (current : ∀ t, load = some t → w.current = some t)
    (done : w.loadContext load = some next) : next.Served := by
  cases load with
  | none =>
      obtain ⟨context, saved, rfl⟩ := Option.map_eq_some_iff.mp done
      obtain ⟨owner, point⟩ := hosted.main context saved
      refine ⟨⟨hosted.routines, hosted.uthreads, hosted.main⟩, ?_⟩
      simp only [owner]
      exact point
  | some t =>
      obtain ⟨u, here, rest⟩ := Option.bind_eq_some_iff.mp done
      obtain ⟨context, saved, rest⟩ := Option.bind_eq_some_iff.mp rest
      cases rest
      obtain ⟨owner, point⟩ := hosted.uthreads t u context here saved
      refine ⟨⟨hosted.routines, hosted.uthreads, hosted.main⟩, ?_⟩
      simp only [owner]
      exact ⟨current t rfl, point⟩

/-- main saves its context in `main_ctx`, and a uthread its own in itself. -/
theorem Hosted.swapcontext {save load : Option Ptr} (hosted : w.Hosted) (after : Point)
    (own : w.running.owner = save) (place : if save = none then after.InMain else after.InUthread)
    (current : ∀ t, load = some t → w.current = some t)
    (done : w.swapcontext save load after = some next) : next.Served := by
  obtain ⟨v, saved, loaded⟩ := Option.bind_eq_some_iff.mp done
  cases save with
  | none =>
      obtain rfl := Option.some.inj saved
      have stored : ({ w with mainCtx := some ⟨w.running.owner, after⟩ } : World).Hosted := by
        refine ⟨hosted.routines, hosted.uthreads, ?_⟩
        rintro context ⟨⟩
        exact ⟨own, by simpa using place⟩
      exact stored.loadContext current loaded
  | some p =>
      obtain ⟨u, here, rfl⟩ := modify_cases saved
      have stored : (w.install p { u with context := some ⟨w.running.owner, after⟩ }).Hosted := by
        refine ⟨fun x v startRoutine there routine => ?_, fun x v context there held => ?_,
          hosted.main⟩
        · obtain ⟨rfl, rfl⟩ | ⟨_, there⟩ := heap_install_cases there
          · exact hosted.routines x u startRoutine here routine
          · exact hosted.routines x v startRoutine there routine
        · obtain ⟨rfl, rfl⟩ | ⟨_, there⟩ := heap_install_cases there
          · cases held
            exact ⟨own, by simpa using place⟩
          · exact hosted.uthreads x v context there held
      exact stored.loadContext current loaded

/-- A yield of the running uthread keeps every context with its owner. -/
theorem Hosted.yields {v : World} {self : Ptr} {after : Point} (hosted : w.Hosted)
    (kept : w.Keeps v) (owner : w.running.owner = some self) (current : v.current = some self)
    (place : after.InUthread) (done : v.uthreadYield after = some next) : next.Served := by
  obtain ⟨x, kept', rest⟩ := uthreadYield_switch done
  have own : x.running.owner = some self := by rw [kept'.1, kept.1, owner]
  have hosted' := hosted.keeps (kept.trans kept')
  rw [current] at rest
  obtain ⟨_, switched⟩ | ⟨null, _⟩ | ⟨t, running, switched⟩ := rest
  · exact hosted'.swapcontext after own (by simpa using place) (by simp) switched
  · cases null
  · refine hosted'.swapcontext after own (by simpa using place) (fun x is => ?_) switched
    rw [running, is]

/-- So does the `uthread_yield` behind its routine. -/
theorem Hosted.finish {v : World} {self : Ptr} (hosted : w.Hosted) (kept : w.Keeps v)
    (owner : w.running.owner = some self) (current : v.current = some self)
    (done : v.finish = some next) : next.Served := by
  obtain ⟨t, now, rest⟩ := Option.bind_eq_some_iff.mp done
  obtain ⟨x, marked, yields⟩ := Option.bind_eq_some_iff.mp rest
  obtain ⟨u, here, rfl⟩ := modify_cases marked
  have ends : Point.InUthread .ended := trivial
  exact hosted.yields (kept.trans (Keeps.install (v := { u with
    state := .finished }) here rfl rfl rfl)) owner current ends yields

/-- A new uthread is a worker and starts with a context of its own. -/
theorem Hosted.create {startRoutine : Word → Code} {arg : Word} {created : Bool}
    (hosted : w.Hosted) (worker : (startRoutine arg).Worker)
    (done : w.uthreadCreate t startRoutine arg answer = some (created, next)) :
    next.Hosted ∧ next.running = w.running ∧ next.current = w.current := by
  have written : ∀ (v : Uthread) (x : World), (∀ r, v.startRoutine = some r → (r v.arg).Worker) →
      (∀ context, v.context = some context →
        context.owner = some t ∧ context.point.InUthread) →
      x.heap = Function.update w.heap t (some v) → x.mainCtx = w.mainCtx → x.Hosted := by
    intro v x routines contexts heap same
    refine ⟨fun y u r here routine => ?_, fun y u context here held => ?_, same ▸ hosted.main⟩
    · rw [heap] at here
      obtain ⟨rfl, rfl⟩ | ⟨_, there⟩ := heap_install_cases (w := w) here
      · exact routines r routine
      · exact hosted.routines y u r there routine
    · rw [heap] at here
      obtain ⟨rfl, rfl⟩ | ⟨_, there⟩ := heap_install_cases (w := w) here
      · exact contexts context held
      · exact hosted.uthreads y u context there held
  cases answer with
  | granted =>
      cases (uthreadCreate_granted ..).symm.trans done
      refine ⟨written _ _ (fun r routine => ?_) (fun context held => ?_) rfl rfl, rfl, rfl⟩
      · cases routine
        exact worker
      · cases held
        exact ⟨rfl, trivial⟩
  | noMemory =>
      cases done
      exact ⟨written _ _ (fun _ held => by cases held) (fun _ held => by cases held) rfl rfl, rfl,
        rfl⟩
  | noContext =>
      cases done
      exact ⟨written _ _ (fun _ held => by cases held) (fun _ held => by cases held) rfl rfl, rfl,
        rfl⟩

theorem Served.logged (served : w.Served) (events : List Event) :
    ({ w with events := events } : World).Served :=
  ⟨⟨served.routines, served.uthreads, served.main⟩, served.running⟩

theorem Hosted.inMain (hosted : w.Hosted) (point : Point) (owner : w.running.owner = none)
    (place : point.InMain) : (w.goto point).Served := by
  refine ⟨⟨hosted.routines, hosted.uthreads, hosted.main⟩, ?_⟩
  have owner' : (w.goto point).running.owner = none := owner
  rw [owner']
  exact place

theorem Hosted.inUthread {self : Ptr} (hosted : w.Hosted) (point : Point)
    (owner : w.running.owner = some self) (current : w.current = some self)
    (place : point.InUthread) : (w.goto point).Served := by
  refine ⟨⟨hosted.routines, hosted.uthreads, hosted.main⟩, ?_⟩
  have owner' : (w.goto point).running.owner = some self := owner
  rw [owner']
  exact ⟨current, place⟩

theorem Served.step_main (served : w.Served) (owner : w.running.owner = none)
    (done : w.step answer = some next) : next.Served := by
  have hosted := served.toHosted
  have place : w.running.point.InMain := by
    have running := served.running
    rw [owner] at running
    exact running
  unfold World.step at done
  cases point : w.running.point with
  | ended =>
      rw [point] at place
      exact place.elim
  | entry =>
      rw [point] at place
      exact place.elim
  | looping code =>
      rw [point] at place done
      obtain ⟨⟨found, v⟩, popped, rest⟩ := Option.bind_eq_some_iff.mp done
      have kept := Keeps.qPopReady popped
      cases found with
      | none =>
          cases rest
          exact (hosted.keeps kept).inMain (.code code) (by rw [kept.1, owner]) place
      | some t =>
          obtain ⟨x, started, switched⟩ := Option.bind_eq_some_iff.mp rest
          have kept' := kept.trans (.makeRunning started)
          obtain ⟨u, _, rfl⟩ := modify_cases started
          exact (hosted.keeps kept').swapcontext (.resumed t code) (by rw [kept'.1, owner])
            (by simpa [Point.InMain] using place) (fun x is => is) switched
  | resumed t code =>
      rw [point] at place done
      obtain ⟨v, collected, rfl⟩ := Option.map_eq_some_iff.mp done
      have kept := Keeps.collect collected
      exact (hosted.keeps kept).inMain (.looping code) (by rw [kept.1, owner]) place
  | code code =>
      rw [point] at place done
      cases code with
      | done result => simp [owner] at done
      | create t startRoutine arg after =>
          obtain ⟨⟨created, v⟩, made, rfl⟩ := Option.map_eq_some_iff.mp done
          obtain ⟨hosted', same, _⟩ := hosted.create place.1 made
          exact hosted'.inMain (.code (after created)) (by rw [same, owner])
            (place.2 created)
      | run => exact place.elim
      | yield => exact place.elim
      | runAll after =>
          cases done
          exact hosted.inMain (.looping after) owner place

theorem Served.step_uthread {self : Ptr} (served : w.Served) (owner : w.running.owner = some self)
    (done : w.step answer = some next) : next.Served := by
  have hosted := served.toHosted
  obtain ⟨current, place⟩ : w.current = some self ∧ w.running.point.InUthread := by
    have running := served.running
    rw [owner] at running
    exact running
  unfold World.step at done
  cases point : w.running.point with
  | ended =>
      rw [point] at done
      have done : w.loadContext none = some next := done
      exact hosted.loadContext (by simp) done
  | entry =>
      rw [point] at done
      obtain ⟨t, now, rest⟩ := Option.bind_eq_some_iff.mp done
      obtain ⟨u, here, rest⟩ := Option.bind_eq_some_iff.mp rest
      split at rest
      case h_1 startRoutine _ routine _ =>
        cases rest
        have worker := hosted.routines t u startRoutine here routine
        exact (hosted.inUthread (.code (startRoutine u.arg)) owner current worker).logged _
      case h_2 => exact hosted.finish (.refl w) owner current rest
  | looping code =>
      rw [point] at place
      exact place.elim
  | resumed t code =>
      rw [point] at place
      exact place.elim
  | code code =>
      rw [point] at place done
      cases code with
      | done result =>
          obtain ⟨self', _, left⟩ := Option.bind_eq_some_iff.mp done
          obtain ⟨t, _, rest⟩ := Option.bind_eq_some_iff.mp left
          obtain ⟨v, written, finishes⟩ := Option.bind_eq_some_iff.mp rest
          obtain ⟨u, here, rfl⟩ := modify_cases written
          have kept : w.Keeps { w.install t { u with retval := result } with
              events := w.events ++ [.returned self' result] } :=
            (Keeps.install (v := { u with retval := result }) here rfl rfl rfl).trans
              ⟨rfl, rfl, fun _ u here => ⟨u, here, rfl, rfl, rfl⟩⟩
          exact hosted.finish kept owner current finishes
      | create t startRoutine arg after =>
          obtain ⟨⟨created, v⟩, made, rfl⟩ := Option.map_eq_some_iff.mp done
          obtain ⟨hosted', same, same'⟩ := hosted.create place.1 made
          exact hosted'.inUthread (.code (after created)) (by rw [same, owner])
            (same'.trans current) (place.2 created)
      | run => exact place.elim
      | yield after =>
          have place : Point.InUthread (.code after) := place
          exact hosted.yields (.refl w) owner current place done
      | runAll => exact place.elim

/-- **The run lemma.** In every reachable state the running context is that of main or of
the uthread that `current` names. -/
theorem reached_served (isMain : main.Main) (reached : Transition.Reaches step (start main) w) :
    w.Served := by
  refine reached.invariant (motive := Served) (.start isMain) fun w answer next served _ done => ?_
  cases owner : w.running.owner with
  | none => exact served.step_main owner done
  | some self => exact served.step_uthread owner done

/-! ## Giving way -/

/-- The uthreads switched to so far. -/
def resumptions (w : World) : List Ptr := w.events.filterMap Event.resumption

/-- In every run from here another uthread than `self` is resumed next, and `self` not
before all others that are READY here. -/
def GivesWay (w : World) (self : Ptr) : Prop :=
  ∀ v later, Transition.Reaches step w v → v.resumptions = w.resumptions ++ later →
    later.head? ≠ some self ∧
      ∀ before after, later = before ++ self :: after → ∀ t, t ≠ self → w.Ready t → t ∈ before

/-- **A yield gives way to nobody.** Wherever a running uthread yields while another one is
READY, it is itself resumed next. -/
theorem yield_never_gives_way (isMain : main.Main) {self : Ptr}
    (reached : Transition.Reaches step (start main) w)
    (place : w.running = ⟨some self, .code (.yield code)⟩) (here : w.heap self = some u)
    (state : u.state = .running) (other : ∃ t, t ≠ self ∧ w.Ready t) : ¬ w.GivesWay self := by
  intro gives
  have current : w.current = some self := by
    have running := (reached_served isMain reached).running
    rw [place] at running
    exact running.1
  have stepped := uthreadYield_running current here state (.code code)
  have yields := step_yield .granted (congrArg Context.point place)
  obtain ⟨t, apart, ready⟩ := other
  have before := (gives _ [self] (.next .start .granted (yields.trans stepped)) (by
    simp [resumptions, Event.resumption])).2 [] [] rfl t apart ready
  cases before

/-- Two uthreads that yield once, and `uthread_run_all`. -/
def twoYields : Code :=
  .create 0 (fun _ => .yield (.done 0)) 1 fun _ =>
    .create 1 (fun _ => .yield (.done 0)) 2 fun _ => .runAll (.done 0)

theorem twoYields_main : twoYields.Main := ⟨trivial, fun _ => ⟨trivial, fun _ => trivial⟩⟩

/-- `twoYields` up to the first call of `uthread_yield`. -/
theorem twoYields_reached : ∃ w, Transition.Reaches step (start twoYields) w ∧
    w.running = ⟨some 1, .code (.yield (.done 0))⟩ ∧ w.current = some 1 ∧
      (∃ u, w.heap 1 = some u ∧ u.state = .running) ∧ w.Ready 0 := by
  have ran : (Transition.run step (start twoYields) (List.replicate 5 .granted)).map
      (fun w => (w.running, w.current, (w.heap 1).map Uthread.state, decide (w.Ready 0))) =
        some (⟨some 1, .code (.yield (.done 0))⟩, some 1, some .running, true) := rfl
  obtain ⟨w, ran, facts⟩ := Option.map_eq_some_iff.mp ran
  simp only [Prod.mk.injEq, decide_eq_true_eq, Option.map_eq_some_iff] at facts
  obtain ⟨place, current, running, ready⟩ := facts
  exact ⟨w, .of_run ran .start, place, current, running, ready⟩

/-- The theorem at the first yield of `twoYields`. -/
theorem yield_never_gives_way_run : ∃ w, Transition.Reaches step (start twoYields) w ∧
    (∃ code, w.running = ⟨some 1, .code (.yield code)⟩) ∧ w.Ready 0 ∧ ¬ w.GivesWay 1 := by
  obtain ⟨w, reached, place, _, ⟨u, here, state⟩, ready⟩ := twoYields_reached
  exact ⟨w, reached, ⟨_, place⟩, ready,
    yield_never_gives_way twoYields_main reached place here state ⟨0, by decide, ready⟩⟩

/-- A uthread that yields to itself while another one is READY. -/
theorem yield_resumes_itself :
    ¬ ∀ w code, Transition.Reaches step (start twoYields) w →
      w.running = ⟨some 1, .code (.yield code)⟩ → w.Ready 0 → w.GivesWay 1 := by
  intro gives
  obtain ⟨w, reached, place, current, ⟨u, here, state⟩, ready⟩ := twoYields_reached
  have stepped := uthreadYield_running current here state (.code (.done 0))
  have yields := step_yield .granted (congrArg Context.point place)
  exact (gives w _ reached place ready _ [1] (.next .start .granted (yields.trans stepped)) (by
    simp [resumptions, Event.resumption])).1 rfl

end World

end OperationSystems.UserThread
