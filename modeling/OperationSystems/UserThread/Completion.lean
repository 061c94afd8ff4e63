import OperationSystems.UserThread.Roster

/-!
# `uthread_run_all` runs everything to the end

Where main only creates uthreads and runs them all, and uthreads only create others and
yield, every step of the library is a move of the stack of jobs: the queue is the stack,
`current` the uthread that runs, and `main_ctx` where main waits.
-/

namespace OperationSystems.UserThread

/-- The uthread without its link and its context. -/
def bare (u : Uthread) : Uthread := { u with context := none, next := none }

namespace World

open LinkedCells

variable {w next : World} {d e : Roster} {t self : Ptr} {u v : Uthread} {jobs rest : List Ptr}
  {main code : Code} {answer : Answer}

/-- The queue is the stack of jobs, none of which has run, and the uthreads are those of
the roster. -/
structure Mirrors (w : World) (d : Roster) (jobs : List Ptr) : Prop where
  queue : w.Queue jobs
  known : w.Known
  view : ∀ t, d.uthreads t = (w.heap t).map bare
  contexts : ∀ t ∈ jobs, ∃ u, w.heap t = some u ∧ u.context = some ⟨some t, .entry⟩
  created : d.created = w.created
  mallocs : d.mallocs = w.mallocs
  frees : d.frees = w.frees
  events : d.events = w.events

/-- The library as a stack of jobs. -/
structure Serves (w : World) (d : Roster) : Prop extends w.Mirrors d d.jobs where
  running : d.running = w.running
  current : ∀ self, w.running.owner = some self → w.current = some self
  main : ∀ self, w.running.owner = some self →
    w.mainCtx = d.waiting.map fun (t, next) => ⟨none, .resumed t next⟩

/-- Who is enrolled is in memory, as the roster has it. -/
theorem Mirrors.heap (mirrors : w.Mirrors d jobs) {b : Uthread} (there : d.uthreads t = some b) :
    ∃ u, w.heap t = some u ∧ b = bare u := by
  rw [mirrors.view] at there
  obtain ⟨u, here, rfl⟩ := Option.map_eq_some_iff.mp there
  exact ⟨u, here, rfl⟩

/-- `Mirrors` is about the queue, the heap, what is allocated, and the events. -/
theorem Mirrors.congr (mirrors : w.Mirrors d jobs)
    (same : (next.readyq, next.heap, next.objects, next.created, next.mallocs, next.frees,
      next.events) = (w.readyq, w.heap, w.objects, w.created, w.mallocs, w.frees, w.events))
    (same' : (e.uthreads, e.created, e.mallocs, e.frees, e.events) =
      (d.uthreads, d.created, d.mallocs, d.frees, d.events)) : next.Mirrors e jobs := by
  cases w
  cases next
  cases d
  cases e
  simp only [Prod.mk.injEq] at same same'
  obtain ⟨rfl, rfl, rfl, rfl, rfl, rfl, rfl⟩ := same
  obtain ⟨rfl, rfl, rfl, rfl, rfl⟩ := same'
  exact ⟨mirrors.queue, mirrors.known, mirrors.view, mirrors.contexts, mirrors.created,
    mirrors.mallocs, mirrors.frees, mirrors.events⟩

theorem Mirrors.log (mirrors : w.Mirrors d jobs) (event : Event) :
    ({ w with events := w.events ++ [event] } : World).Mirrors
      { d with events := d.events ++ [event] } jobs where
  queue := mirrors.queue
  known := mirrors.known
  view := mirrors.view
  contexts := mirrors.contexts
  created := mirrors.created
  mallocs := mirrors.mallocs
  frees := mirrors.frees
  events := by simp only [mirrors.events]

/-- A write to memory that keeps the queue, and the context of a job. -/
theorem Mirrors.write {objects : List Ptr} (mirrors : w.Mirrors d jobs)
    (queue : (w.install t v).Queue jobs) (context : t ∈ jobs → v.context = some ⟨some t, .entry⟩)
    (known : t ∈ objects) (more : w.objects ⊆ objects) :
    ({ w.install t v with objects := objects } : World).Mirrors (d.install t (bare v)) jobs where
  queue := queue
  known := by
    intro x y held
    obtain ⟨rfl, _⟩ | ⟨_, held⟩ := heap_install_cases (w := w) held
    · exact known
    · exact more (mirrors.known x y held)
  view := by
    intro x
    by_cases same : x = t
    · subst same
      rw [Roster.uthreads_install_self]
      exact (congrArg (Option.map bare) heap_install_self).symm
    · rw [Roster.uthreads_install_of_ne same, mirrors.view]
      exact (congrArg (Option.map bare) (heap_install_of_ne same)).symm
  contexts := by
    intro x member
    by_cases same : x = t
    · subst same
      exact ⟨v, heap_install_self, context member⟩
    · obtain ⟨u', there, saved⟩ := mirrors.contexts x member
      exact ⟨u', (heap_install_of_ne same).trans there, saved⟩
  created := mirrors.created
  mallocs := mirrors.mallocs
  frees := mirrors.frees
  events := mirrors.events

/-- A write that keeps the link, and the context of a job. -/
theorem Mirrors.install (mirrors : w.Mirrors d jobs) (here : w.heap t = some u)
    (link : v.next = u.next) (context : t ∈ jobs → v.context = u.context) :
    (w.install t v).Mirrors (d.install t (bare v)) jobs := by
  refine mirrors.write (mirrors.queue.install here link) (fun member => ?_)
    (mirrors.known t u here) (List.Subset.refl _)
  obtain ⟨u', there, saved⟩ := mirrors.contexts t member
  obtain rfl := Option.some.inj (here.symm.trans there)
  exact (context member).trans saved

/-- A write of the link and the context outside the queue is not seen. -/
theorem Mirrors.rebind (mirrors : w.Mirrors d jobs) (here : w.heap t = some u) (off : t ∉ jobs)
    (same : bare v = bare u) : (w.install t v).Mirrors d jobs := by
  have written := mirrors.write (v := v) (mirrors.queue.install_of_notMem off v)
    (fun member => absurd member off) (mirrors.known t u here) (List.Subset.refl _)
  have there : d.uthreads t = some (bare v) := by rw [mirrors.view, here, Option.map_some, same]
  have unchanged : (d.install t (bare v)).uthreads = d.uthreads :=
    Function.update_eq_self_iff.mpr there.symm
  exact written.congr rfl (by rw [unchanged]; rfl)

/-- Cleared memory outside the queue. -/
theorem Mirrors.clear (mirrors : w.Mirrors d jobs) (off : t ∉ jobs) (v : Uthread) :
    ({ w.install t v with objects := t :: w.objects } : World).Mirrors (d.install t (bare v))
      jobs :=
  mirrors.write (mirrors.queue.install_of_notMem off v) (fun member => absurd member off)
    List.mem_cons_self (List.subset_cons_self _ _)

/-! ## Taking a job -/

/-- `q_pop_ready` finds nothing where there are no jobs. -/
theorem Mirrors.pop_none (mirrors : w.Mirrors d []) : w.qPopReady = some (none, w) := by
  obtain ⟨_, popped⟩ | ⟨_, _, _, first, _⟩ := qPopReady_cases mirrors.queue mirrors.known
  · exact popped
  · cases first

/-- `q_pop_ready` takes the uppermost job, which has not run. -/
theorem Mirrors.pop (mirrors : w.Mirrors d (t :: rest)) {b : Uthread}
    (there : d.uthreads t = some b) (ready : b.state = .ready) :
    ∃ v u, w.qPopReady = some (some t, v) ∧ w.Keeps v ∧ v.current = w.current ∧
      v.Mirrors d rest ∧ v.heap t = some u ∧ u.context = some ⟨some t, .entry⟩ := by
  obtain ⟨u, here, rfl⟩ := mirrors.heap there
  have head : w.ready t = true := ready_iff.mpr ⟨u, here, ready⟩
  obtain ⟨first, _⟩ | ⟨t', q, link, first, popped, queue⟩ :=
    qPopReady_cases mirrors.queue mirrors.known
  · simp [head] at first
  obtain rfl : t = t' := by simpa [head] using first
  rw [List.erase_cons_head] at queue
  obtain ⟨u', here', saved⟩ := mirrors.contexts t List.mem_cons_self
  obtain rfl := Option.some.inj (here.symm.trans here')
  refine ⟨_, { u with next := link t }, popped, .qPopReady popped, rfl, ⟨queue, ?_, fun x => ?_,
    fun x member => ?_, mirrors.created, mirrors.mallocs, mirrors.frees, mirrors.events⟩,
    by simp [heap_relink, here], saved⟩
  · intro x y held
    obtain ⟨u, there, _⟩ := heap_relink_cases held
    exact mirrors.known x u there
  · rw [mirrors.view, heap_relink, Option.map_map]
    rfl
  · obtain ⟨u', there, saved⟩ := mirrors.contexts x (List.mem_cons_of_mem _ member)
    exact ⟨{ u' with next := link x }, by simp [heap_relink, there], saved⟩

/-- main runs a uthread for the first time. -/
theorem Mirrors.launch_main (mirrors : w.Mirrors d rest) (here : w.heap t = some u)
    (context : u.context = some ⟨some t, .entry⟩) (off : t ∉ rest) (owner : w.running.owner = none)
    (waiting : d.waiting = some (t, code)) (done : d.launch t rest = some e) :
    ∃ next, w.uthreadRun t (.resumed t code) = some next ∧ next.Serves e := by
  unfold Roster.launch at done
  rw [mirrors.view, here] at done
  obtain rfl := Option.some.inj done
  have written := mirrors.install (v := { u with state := .running }) here rfl fun member =>
    absurd member off
  refine ⟨{ w.install t { u with state := .running } with
    current := some t
    mainCtx := some ⟨none, .resumed t code⟩
    running := ⟨some t, .entry⟩
    events := w.events ++ [.resumed t] }, ?_, (written.log (.resumed t)).congr rfl rfl, rfl,
      fun self is => is, fun _ _ => ?_⟩
  · simp [uthreadRun, makeRunning, modify, here, swapcontext, saveContext, loadContext,
      World.install, owner, context]
  · change _ = Option.map _ d.waiting
    rw [waiting]
    rfl

/-- A uthread that ends runs another one for the first time. -/
theorem Mirrors.launch_uthread (mirrors : w.Mirrors d rest) (here : w.heap t = some u)
    (context : u.context = some ⟨some t, .entry⟩) (off : t ∉ rest) (own : w.heap self = some v)
    (apart : self ≠ t) (off' : self ∉ rest)
    (waits : w.mainCtx = d.waiting.map fun (t, next) => ⟨none, .resumed t next⟩)
    (done : d.launch t rest = some e) : ∃ next, (w.makeRunning t).bind
      (fun w => w.swapcontext (some self) (some t) .ended) = some next ∧ next.Serves e := by
  unfold Roster.launch at done
  rw [mirrors.view, here] at done
  obtain rfl := Option.some.inj done
  have first := mirrors.install (v := { u with state := .running }) here rfl fun member =>
    absurd member off
  have own' : (w.install t { u with state := .running }).heap self = some v :=
    (heap_install_of_ne apart).trans own
  have written := first.rebind (v := { v with context := some ⟨w.running.owner, .ended⟩ }) own' off'
    rfl
  refine ⟨{ (w.install t { u with state := .running }).install self
      { v with context := some ⟨w.running.owner, .ended⟩ } with
    current := some t
    running := ⟨some t, .entry⟩
    events := w.events ++ [.resumed t] }, ?_, (written.log (.resumed t)).congr rfl rfl, rfl,
      fun self is => is, fun _ _ => waits⟩
  simp [makeRunning, modify, here, own, apart, Ne.symm apart, swapcontext, saveContext,
    loadContext, World.install, context]

/-! ## The library moves as the stack does -/

theorem Serves.start (main : Code) : (start main).Serves (Roster.start main) where
  queue := rfl
  known := fun _ _ held => by cases held
  view := fun _ => rfl
  contexts := fun _ member => by cases member
  created := rfl
  mallocs := rfl
  frees := rfl
  events := rfl
  running := rfl
  current := fun _ is => by cases is
  main := fun _ is => by cases is

/-- The running context goes on elsewhere. -/
theorem Serves.goto (serves : w.Serves d) (point : Point) :
    (w.goto point).Serves (d.goto point) where
  toMirrors := serves.toMirrors.congr rfl rfl
  running := by simp only [Roster.goto, World.goto, serves.running]
  current := serves.current
  main := serves.main

/-- The same event is logged on both sides. -/
theorem Serves.log (serves : w.Serves d) (event : Event) :
    ({ w with events := w.events ++ [event] } : World).Serves
      { d with events := d.events ++ [event] } where
  toMirrors := serves.toMirrors.log event
  running := serves.running
  current := serves.current
  main := serves.main

/-- The same object is stored on both sides, with its link and, for a job, its context
unchanged. -/
theorem Serves.install (serves : w.Serves d) (here : w.heap t = some u) (link : v.next = u.next)
    (context : t ∈ d.jobs → v.context = u.context) :
    (w.install t v).Serves (d.install t (bare v)) where
  toMirrors := serves.toMirrors.install here link context
  running := serves.running
  current := serves.current
  main := serves.main

/-- A creation is one on the roster. -/
theorem Serves.create {startRoutine : Word → Code} {arg : Word} {after : Bool → Code}
    (serves : w.Serves d) (off : t ∉ d.jobs)
    (place : w.running.point = .code (.create t startRoutine arg after)) (answer : Answer) :
    ∃ next, w.step answer = some next ∧ next.Serves (d.create t startRoutine arg after answer) := by
  have place' : ∀ point : Point, ({ d.running with point := point } : Context) =
      { w.running with point := point } := fun point => by rw [serves.running]
  unfold World.step
  rw [place]
  simp only
  cases answer with
  | granted =>
      rw [uthreadCreate_granted]
      have clear := serves.clear off (w.fresh t startRoutine arg)
      refine ⟨_, rfl, ⟨serves.queue.push off rfl, clear.known, fun x => ?_, fun x member => ?_,
        ?_, ?_, serves.frees, serves.events⟩, place' _, serves.current, serves.main⟩
      · refine Eq.trans ?_ (clear.view x)
        unfold Roster.create
        rw [serves.mallocs]
        rfl
      · obtain rfl | later := List.mem_cons.mp member
        · exact ⟨_, heap_install_self, rfl⟩
        · exact clear.contexts x later
      · change d.created ++ [_] = w.created ++ [_]
        rw [serves.created]
      · change d.mallocs ++ [t] = w.mallocs ++ [t]
        rw [serves.mallocs]
  | noMemory =>
      have clear := serves.clear off zeroed
      exact ⟨_, rfl, clear.congr rfl rfl, place' _, serves.current, serves.main⟩
  | noContext =>
      have clear := serves.clear off { zeroed with stack := some w.mallocs.length }
      refine ⟨_, rfl, ⟨clear.queue, clear.known, fun x => ?_, clear.contexts, serves.created, ?_,
        ?_, clear.events⟩, place' _, serves.current, serves.main⟩
      · refine Eq.trans ?_ (clear.view x)
        unfold Roster.create
        rw [serves.mallocs]
        rfl
      · change d.mallocs ++ [t] = w.mallocs ++ [t]
        rw [serves.mallocs]
      · change d.frees ++ [d.mallocs.length] = w.frees ++ [w.mallocs.length]
        rw [serves.mallocs, serves.frees]

/-- main frees the stack of the uthread that it has started. -/
theorem Serves.collect (serves : w.Serves d) (here : w.heap t = some u)
    (state : u.state = .finished) :
    ∃ next, w.collect t = some next ∧ next.Serves (d.free t (bare u)) := by
  cases stack : u.stack with
  | none =>
      have freed : d.free t (bare u) = d := by
        unfold Roster.free
        rw [show (bare u).stack = none from stack]
      rw [freed]
      exact ⟨w, by simp [World.collect, here, state, stack], serves⟩
  | some block =>
      have freed : d.free t (bare u) = { d.install t (bare { u with stack := none }) with
          frees := d.frees ++ [block] } := by
        unfold Roster.free
        rw [show (bare u).stack = some block from stack]
        rfl
      rw [freed]
      have written := serves.install (v := { u with stack := none }) here rfl fun _ => rfl
      refine ⟨{ w.install t { u with stack := none } with frees := w.frees ++ [block] }, ?_,
        ⟨written.queue, written.known, written.view, written.contexts, written.created,
          written.mallocs, ?_,
          written.events⟩, written.running, written.current, written.main⟩
      · simp [World.collect, here, state, stack]
      · simp only [serves.frees]

/-- main's steps. -/
theorem Serves.step_main (serves : w.Serves d) (sound : d.Sound) (owner : d.running.owner = none)
    (distinct : d.Distinct) (done : d.step answer = some e) :
    ∃ next, w.step answer = some next ∧ next.Serves e := by
  obtain ⟨place, back⟩ := sound.main owner
  have kept : d.Kept none := owner ▸ sound.kept
  have owner' : w.running.owner = none := serves.running ▸ owner
  unfold Roster.step at done
  cases point : d.running.point with
  | ended =>
      rw [point] at place
      exact place.elim
  | entry =>
      rw [point] at place
      exact place.elim
  | looping after =>
      rw [point, owner] at done
      have point' : w.running.point = .looping after := serves.running ▸ point
      unfold World.step
      rw [point']
      cases jobs : d.jobs with
      | nil =>
          simp only [jobs] at done
          obtain rfl := Option.some.inj done
          have popped := (jobs ▸ serves.toMirrors : w.Mirrors d []).pop_none
          exact ⟨_, by simp only [popped, Option.bind_eq_bind, Option.bind_some], serves.goto _⟩
      | cons t rest =>
          simp only [jobs] at done
          obtain ⟨b, there, _, ready, _⟩ := kept.jobs t (jobs ▸ List.mem_cons_self)
          have off : t ∉ rest := (List.nodup_cons.mp (jobs ▸ kept.nodup)).1
          obtain ⟨v, u, popped, keeps, _, mirrors, here, context⟩ :=
            (jobs ▸ serves.toMirrors : w.Mirrors d (t :: rest)).pop there ready
          have mirrors' : v.Mirrors { d with waiting := some (t, after) } rest :=
            mirrors.congr rfl rfl
          obtain ⟨next, ran, serves'⟩ := mirrors'.launch_main here context off
            (by rw [keeps.1, owner']) rfl done
          exact ⟨next, by simp only [popped, Option.bind_eq_bind, Option.bind_some, ran], serves'⟩
  | resumed t after =>
      rw [point, owner] at done
      obtain ⟨b, there, rfl⟩ := Option.map_eq_some_iff.mp done
      obtain ⟨jobs, known⟩ := back t after point
      obtain ⟨u, here, rfl⟩ := serves.heap there
      have created : u.Created := by
        obtain ⟨b, there', created⟩ := known
        obtain rfl := Option.some.inj (there.symm.trans there')
        exact created
      have state : u.state = .finished :=
        (kept.ended t (bare u) there created (by simp [jobs]) (by simp)).1
      have point' : w.running.point = .resumed t after := serves.running ▸ point
      obtain ⟨v, collected, serves'⟩ := serves.collect here state
      unfold World.step
      rw [point']
      exact ⟨_, by simp only [collected, Option.map_some], serves'.goto _⟩
  | code code =>
      rw [point] at place done
      have point' : w.running.point = .code code := serves.running ▸ point
      cases code with
      | done result => simp [owner] at done
      | run => exact place.elim
      | yield => exact place.elim
      | create t startRoutine arg after =>
          obtain rfl := Option.some.inj done
          unfold Roster.Distinct at distinct
          rw [point] at distinct
          refine serves.create (fun member => ?_) point' answer
          obtain ⟨b, there, created, _⟩ := kept.jobs t member
          exact distinct ⟨b, there, created⟩
      | runAll after =>
          simp only [owner] at done
          obtain rfl := Option.some.inj done
          exact ⟨_, by unfold World.step; rw [point'], serves.goto _⟩

/-- `uthread_entry` behind the return of `start_routine`. -/
theorem leave_eq (current : w.current = some self) (here : w.heap self = some u) (result : Word) :
    w.leave self result = ({ w.install self { u with retval := result, state := .finished } with
      events := w.events ++ [.returned self result] } : World).uthreadYield .ended := by
  simp [leave, finish, modify, World.install, current, here]

/-- A uthread that ends hands over to the uppermost job, or to main. -/
theorem Serves.leave {result : Word} {yields : ℕ} (serves : w.Serves d) (sound : d.Sound)
    (owner : d.running.owner = some self) (place : d.running.point = .code (.done result))
    (here : w.heap self = some u) (created : u.Created)
    (leads : (bare u).Leads yields (.done result))
    (log : d.history self = ran self u.arg yields) (off : self ∉ d.jobs)
    (done : d.step answer = some e) : ∃ next, w.leave self result = some next ∧ next.Serves e := by
  have owner' : w.running.owner = some self := serves.running ▸ owner
  have current := serves.current self owner'
  have there : d.uthreads self = some (bare u) := by rw [serves.view, here, Option.map_some]
  have kept : (d.finish self (bare u) result).Kept none :=
    (owner ▸ sound.kept : d.Kept (some self)).finish result off there created leads
      log
  unfold Roster.step at done
  simp only [place, owner, there, Option.bind_eq_bind, Option.bind_some] at done
  rw [leave_eq current here]
  have written := serves.install (v := { u with retval := result, state := .finished }) here rfl
    fun _ => rfl
  have mirrors : ({ w.install self { u with retval := result, state := .finished } with
      events := w.events ++ [.returned self result] } : World).Mirrors
        (d.finish self (bare u) result) d.jobs := (written.log (.returned self result)).toMirrors
  -- the world in which `uthread_yield` is called
  generalize shape : ({ w.install self { u with retval := result, state := .finished } with
    events := w.events ++ [.returned self result] } : World) = w' at mirrors ⊢
  have own : w'.heap self = some { u with retval := result, state := .finished } := by
    rw [← shape]
    exact heap_install_self
  have same : w'.current = some self ∧ w'.running = w.running ∧ w'.mainCtx = w.mainCtx := by
    rw [← shape]
    exact ⟨current, rfl, rfl⟩
  have idle : w'.requeue = some w' := requeue_idle fun p is => by
    obtain rfl := Option.some.inj (same.1.symm.trans is)
    exact ⟨_, own, by simp⟩
  unfold uthreadYield
  simp only [same.1, idle, Option.bind_eq_bind, Option.bind_some, Option.isSome_some, if_true]
  cases jobs : d.jobs with
  | nil =>
      simp only [jobs] at done
      obtain ⟨⟨x, after⟩, waiting, rfl⟩ := Option.map_eq_some_iff.mp done
      have popped : w'.qPopReady = some (none, w') := Mirrors.pop_none (jobs ▸ mirrors)
      have saved : w'.mainCtx = some ⟨none, .resumed x after⟩ := by
        rw [same.2.2, serves.main self owner', waiting]
        rfl
      have again := mirrors.rebind (v := { u with
        retval := result
        state := .finished
        context := some ⟨w'.running.owner, .ended⟩ }) own off rfl
      refine ⟨{ w'.install self { u with
        retval := result
        state := .finished
        context := some ⟨w'.running.owner, .ended⟩ } with running := ⟨none, .resumed x after⟩ }, ?_,
          again.congr rfl rfl, rfl, fun _ is => (by cases is), fun _ is => (by cases is)⟩
      simp [popped, swapcontext, saveContext, loadContext, modify, own, World.install, saved]
  | cons t rest =>
      simp only [jobs] at done
      have off' := off
      rw [jobs, List.mem_cons, not_or] at off'
      obtain ⟨b, there', _, ready, _⟩ := kept.jobs t (jobs ▸ List.mem_cons_self)
      have notIn : t ∉ rest := (List.nodup_cons.mp (jobs ▸ sound.kept.nodup)).1
      obtain ⟨v, u', popped, keeps, _, mirrors', here', context⟩ :=
        (jobs ▸ mirrors : w'.Mirrors (d.finish self (bare u) result) (t :: rest)).pop there' ready
      obtain ⟨v', own', _⟩ := mirrors'.heap Roster.uthreads_install_self
      have waits : v.mainCtx = (d.finish self (bare u) result).waiting.map
          fun (t, next) => ⟨none, .resumed t next⟩ := by
        rw [keeps.2.1, same.2.2]
        exact serves.main self owner'
      obtain ⟨next, ran, serves'⟩ := mirrors'.launch_uthread here' context notIn own' off'.1 off'.2
        waits done
      exact ⟨next, by simp only [popped, Option.bind_some]; exact ran, serves'⟩

/-- A uthread's steps. -/
theorem Serves.step_uthread (serves : w.Serves d) (sound : d.Sound)
    (owner : d.running.owner = some self) (distinct : d.Distinct) (done : d.step answer = some e) :
    ∃ next, w.step answer = some next ∧ next.Serves e := by
  obtain ⟨off, ⟨b, there, created, state, underway⟩, _⟩ := sound.uthread self owner
  obtain ⟨u, here, rfl⟩ := serves.heap there
  have owner' : w.running.owner = some self := serves.running ▸ owner
  have current := serves.current self owner'
  unfold Roster.Underway at underway
  cases point : d.running.point with
  | looping after =>
      rw [point] at underway
      exact underway.elim
  | resumed t after =>
      rw [point] at underway
      exact underway.elim
  | ended =>
      rw [point] at underway
      exact underway.elim
  | entry =>
      have point' : w.running.point = .entry := serves.running ▸ point
      unfold Roster.step at done
      rw [point, owner] at done
      obtain ⟨b, there', rest⟩ := Option.bind_eq_some_iff.mp done
      obtain rfl := Option.some.inj (there.symm.trans there')
      obtain ⟨startRoutine, routine, rest⟩ := Option.bind_eq_some_iff.mp rest
      obtain rfl := Option.some.inj rest
      have routine : u.startRoutine = some startRoutine := routine
      refine ⟨_, ?_, (serves.goto (.code (startRoutine u.arg))).log (.entered self u.arg)⟩
      unfold World.step
      rw [point']
      simp only [enter, current, here, routine, owner', Option.bind_eq_bind, Option.bind_some]
      rfl
  | code code =>
      rw [point] at underway
      obtain ⟨worker, yields, leads, log⟩ := underway
      have point' : w.running.point = .code code := serves.running ▸ point
      cases code with
      | run => exact worker.elim
      | runAll => exact worker.elim
      | create t startRoutine arg after =>
          unfold Roster.step at done
          rw [point] at done
          obtain rfl := Option.some.inj done
          unfold Roster.Distinct at distinct
          rw [point] at distinct
          refine serves.create (fun member => ?_) point' answer
          obtain ⟨b, there, created, _⟩ := sound.kept.jobs t member
          exact distinct ⟨b, there, created⟩
      | yield after =>
          unfold Roster.step at done
          rw [point, owner] at done
          obtain rfl := Option.some.inj done
          have stepped := (step_yield answer point').trans
            (uthreadYield_running current here state (.code after))
          have written := serves.rebind (v := { u with
            next := none, context := some ⟨w.running.owner, .code after⟩ }) here off rfl
          have serves' : (w.install self { u with
              next := none, context := some ⟨w.running.owner, .code after⟩ }).Serves d :=
            ⟨written, serves.running, serves.current, serves.main⟩
          exact ⟨_, stepped, (serves'.goto (.code after)).log (.resumed self)⟩
      | done result =>
          obtain ⟨next, left, serves'⟩ :=
            serves.leave sound owner point here created leads log off done
          refine ⟨next, ?_, serves'⟩
          unfold World.step
          rw [point']
          simp only [owner', Option.bind_some, left]

/-! ## Runs -/

/-- `uthread_create` is not called on an object that has been created already. -/
def Distinct (w : World) : Prop :=
  match w.running.point with
  | .code (.create t _ _ _) => ∀ u, w.heap t = some u → ¬ u.Created
  | _ => True

/-- What is not created in memory is not enrolled. -/
theorem Serves.distinct (serves : w.Serves d) (distinct : w.Distinct) : d.Distinct := by
  unfold Roster.Distinct
  unfold Distinct at distinct
  rw [serves.running]
  split
  · rename_i t _ _ _ place
    rw [place] at distinct
    rintro ⟨b, there, created⟩
    obtain ⟨u, here, rfl⟩ := serves.heap there
    exact distinct u here created
  · trivial

/-- **Refinement.** Unless main has returned, a step of the library is a move of the stack
of jobs. -/
theorem Serves.step (serves : w.Serves d) (sound : d.Sound) (distinct : w.Distinct)
    (answer : Answer) :
    (w.step answer = none ∧ ∃ result, w.running = ⟨none, .code (.done result)⟩) ∨
      ∃ next e, w.step answer = some next ∧ d.step answer = some e ∧ next.Serves e ∧ e.Sound := by
  have distinct := serves.distinct distinct
  obtain ⟨result, place⟩ | ⟨e, moved, sound'⟩ := sound.step distinct answer
  · have place : w.running = ⟨none, .code (.done result)⟩ := serves.running ▸ place
    refine .inl ⟨?_, result, place⟩
    unfold World.step
    rw [place]
    rfl
  · right
    obtain ⟨next, stepped, serves'⟩ : ∃ next, w.step answer = some next ∧ next.Serves e := by
      cases owner : d.running.owner with
      | none => exact serves.step_main sound owner distinct moved
      | some self => exact serves.step_uthread sound owner distinct moved
    exact ⟨next, e, stepped, moved, serves', sound'⟩

/-- **Runs.** What the moves of the stack of jobs keep, a run of the library keeps. -/
theorem reached_keeps {allowed : World → Answer → Prop} {motive : Roster → Prop} {v : World}
    (distinct : ∀ x, Transition.ReachesBy World.step allowed w x → x.Distinct)
    (kept : ∀ x d answer e, x.Serves d → d.Sound → d.Distinct → allowed x answer → motive d →
      d.step answer = some e → motive e)
    (begun : ∃ d, w.Serves d ∧ d.Sound ∧ motive d)
    (reached : Transition.ReachesBy World.step allowed w v) :
    ∃ d, v.Serves d ∧ d.Sound ∧ motive d := by
  induction reached with
  | start => exact begun
  | step answer before permitted stepped ih =>
      obtain ⟨d, serves, sound, holds⟩ := ih
      have apart := distinct _ before
      obtain ⟨stuck, _⟩ | ⟨next, e, moved, done, serves', sound'⟩ := serves.step sound apart answer
      · cases stuck.symm.trans stepped
      · obtain rfl := Option.some.inj (moved.symm.trans stepped)
        exact ⟨e, serves', sound',
          kept _ d answer e serves sound (serves.distinct apart) permitted holds done⟩

/-- **The run lemma.** Every reachable state serves a sound roster. -/
theorem reached_serves (isMain : main.Main)
    (distinct : ∀ v, Transition.Reaches World.step (World.start main) v → v.Distinct)
    (reached : Transition.Reaches World.step (World.start main) w) :
    ∃ d, w.Serves d ∧ d.Sound := by
  obtain ⟨d, serves, sound, _⟩ := reached_keeps (motive := fun _ => True) distinct
    (fun _ _ _ _ _ _ _ _ _ _ => trivial) ⟨_, .start main, .start isMain, trivial⟩ reached
  exact ⟨d, serves, sound⟩

/-! ## Completion -/

/-- The events of one uthread. -/
def history (w : World) (t : Ptr) : List Event := w.events.filter fun event => event.uthread = t

/-- The uthreads are those of the calls of `uthread_create` that have returned 0, one for each
call, with the routine and the argument that it was given. -/
def AsCreated (w : World) : Prop :=
  (w.created.map Creation.object).Nodup ∧ ∀ t startRoutine arg,
    ⟨t, startRoutine, arg⟩ ∈ w.created ↔
      ∃ u, w.heap t = some u ∧ u.startRoutine = some startRoutine ∧ u.arg = arg

/-- Memory holds the objects as their creations made them. -/
theorem Serves.asCreated (serves : w.Serves d) (listed : d.Listed) : w.AsCreated := by
  have tasks : ∀ t startRoutine arg, d.tasks t = some (some startRoutine, arg) ↔
      ∃ u, w.heap t = some u ∧ u.startRoutine = some startRoutine ∧ u.arg = arg := by
    intro t startRoutine arg
    unfold Roster.tasks
    rw [serves.view, Option.map_map, Option.map_eq_some_iff]
    refine exists_congr fun u => and_congr_right fun _ => ?_
    exact iff_of_eq (Prod.mk.injEq ..)
  unfold AsCreated
  rw [← serves.created]
  refine ⟨listed.nodup, fun t startRoutine arg => ?_⟩
  rw [← tasks]
  exact ⟨fun member => listed.calls _ member, listed.uthreads t startRoutine arg⟩

/-- So it does in every reachable state. -/
theorem reached_asCreated (isMain : main.Main)
    (distinct : ∀ v, Transition.Reaches World.step (World.start main) v → v.Distinct)
    (reached : Transition.Reaches World.step (World.start main) w) : w.AsCreated := by
  obtain ⟨d, serves, _, listed⟩ := reached_keeps (motive := Roster.Listed) distinct
    (fun _ _ _ _ _ _ apart _ listed done => listed.step apart done)
    ⟨_, .start main, .start isMain, .start⟩ reached
  exact serves.asCreated listed

/-- The queue is empty, the uthreads are those that were created, and every one is FINISHED:
its `start_routine` was entered once, with its `arg`, and has returned its `retval`, to which
that call can come behind so many yields, and it was not switched to since. -/
structure Complete (w : World) : Prop where
  queue : w.readyq = none
  created : w.AsCreated
  uthreads : ∀ t u, w.heap t = some u → u.Created → u.state = .finished ∧
    ∃ yields, u.Returns yields ∧ w.history t = ran t u.arg yields ++ [.returned t u.retval]

/-- Where main is between its calls and there are no jobs, every uthread is complete. -/
theorem Serves.complete (serves : w.Serves d) (sound : d.Sound) (created : w.AsCreated)
    (owner : d.running.owner = none) (jobs : d.jobs = []) : w.Complete where
  created := created
  queue := by
    have queue := serves.queue
    rw [jobs] at queue
    exact Option.some.inj queue
  uthreads := by
    intro t u here created
    have kept : d.Kept none := owner ▸ sound.kept
    have there : d.uthreads t = some (bare u) := by rw [serves.view, here, Option.map_some]
    obtain ⟨state, yields, returns, log⟩ :=
      kept.ended t (bare u) there created (by simp [jobs]) (by simp)
    refine ⟨state, yields, returns, Eq.trans ?_ log⟩
    unfold history Roster.history
    rw [serves.events]

/-- main's own code runs. -/
def MainRuns (w : World) : Prop := w.running.owner = none ∧ ∃ code, w.running.point = .code code

/-- **`uthread_run_all` runs everything to the end.** Where main calls only
`uthread_create` and `uthread_run_all`, uthreads call only `uthread_create` and
`uthread_yield`, and no object is created twice, every call of `uthread_run_all` returns,
however `malloc` and `getcontext` answer, and leaves all uthreads complete. -/
theorem runAll_completes (isMain : main.Main)
    (distinct : ∀ v, Transition.Reaches World.step (World.start main) v → v.Distinct)
    (reached : Transition.Reaches World.step (World.start main) w)
    (place : w.running = ⟨none, .code (.runAll code)⟩) (answer : Answer) :
    ∃ next, w.step answer = some next ∧ Transition.Comes World.step MainRuns
      (fun v => v.running = ⟨none, .code code⟩ ∧ v.Complete) next := by
  have called : w.step answer = some (w.goto (.looping code)) := by
    unfold World.step
    rw [place]
  refine ⟨_, called, ?_⟩
  obtain ⟨d, serves, sound⟩ := reached_serves isMain distinct (reached.next answer called)
  refine Transition.comes_of_stage (fun left v =>
    Transition.Reaches World.step (World.start main) v ∧ ∃ d, v.Serves d ∧ d.Sound ∧
      (d.Inside code ∧ left = d.measure + 1 ∨
        left = 0 ∧ d.running = ⟨none, .code code⟩ ∧ d.jobs = [])) ?_ ?_
    (d.measure + 1) ⟨reached.next answer called, d, serves, sound, .inl ⟨?_, rfl⟩⟩
  · rintro left v ⟨reached, d, serves, sound, ⟨inside, _⟩ | ⟨_, running, jobs⟩⟩
      ⟨owner, code', point⟩
    · unfold Roster.Inside at inside
      rw [serves.running, owner] at inside
      obtain looping | ⟨t, resumed⟩ := inside
      · cases looping.symm.trans point
      · cases resumed.symm.trans point
    · exact ⟨serves.running ▸ running, serves.complete sound
        (reached_asCreated isMain distinct reached) (by rw [running]) jobs⟩
  · rintro left v ⟨reached, d, serves, sound, ⟨inside, rfl⟩ | ⟨_, running, _⟩⟩ away
    · refine ⟨?_, fun answer next stepped => ?_⟩
      · obtain ⟨_, result, running⟩ | ⟨next, _, stepped, _⟩ :=
          serves.step sound (distinct v reached) .granted
        · exact absurd ⟨by rw [running], _, by rw [running]⟩ away
        · exact ⟨.granted, next, stepped⟩
      · obtain ⟨stuck, _⟩ | ⟨next', e, stepped', moved, serves', sound'⟩ :=
          serves.step sound (distinct v reached) answer
        · cases stuck.symm.trans stepped
        obtain rfl := Option.some.inj (stepped'.symm.trans stepped)
        obtain ⟨less, inside'⟩ | ⟨running, jobs⟩ :=
          sound.advance (serves.distinct (distinct v reached)) inside moved
        · exact ⟨e.measure + 1, by omega, reached.next answer stepped, e, serves', sound',
            .inl ⟨inside', rfl⟩⟩
        · exact ⟨0, by omega, reached.next answer stepped, e, serves', sound',
            .inr ⟨rfl, running, jobs⟩⟩
    · exact absurd ⟨by rw [← serves.running, running], _, by rw [← serves.running, running]⟩ away
  · have running : d.running = ⟨none, .looping code⟩ := by
      rw [serves.running]
      change ({ w.running with point := .looping code } : Context) = _
      rw [place]
    unfold Roster.Inside
    rw [running]
    exact .inl rfl

/-- The answers that make a difference. -/
def answers (w : World) : List Answer :=
  match w.running.point with
  | .code (.create _ _ _ _) => [.granted, .noMemory, .noContext]
  | _ => [.granted]

/-- The answers tried are all that make a difference. -/
theorem answers_complete (w : World) (answer : Answer) :
    ∃ other ∈ w.answers, w.step other = w.step answer := by
  unfold answers World.step
  cases point : w.running.point with
  | code code =>
      cases code with
      | create => exact ⟨answer, by cases answer <;> simp, rfl⟩
      | done | run | yield | runAll => exact ⟨.granted, List.mem_cons_self, rfl⟩
  | entry | looping | resumed | ended => exact ⟨.granted, List.mem_cons_self, rfl⟩

/-- `Distinct`, to be computed. -/
def distinct (w : World) : Bool :=
  match w.running.point with
  | .code (.create t _ _ _) => (w.heap t).all fun u => u.startRoutine.isNone
  | _ => true

/-- The test finds every second creation. -/
theorem distinct_of (passed : w.distinct = true) : w.Distinct := by
  unfold distinct at passed
  unfold Distinct
  cases point : w.running.point with
  | code code =>
      rw [point] at passed
      cases code with
      | create t startRoutine arg after =>
          intro u here created
          simp only [here, Option.all_some, Option.isNone_iff_eq_none] at passed
          unfold Uthread.Created at created
          rw [passed] at created
          cases created
      | done | run | yield | runAll => trivial
  | entry | looping | resumed | ended => trivial

/-- A uthread that creates another one and yields. -/
def nested : Code :=
  .create 0 (fun _ => .create 1 (fun arg => .yield (.done arg)) 8 fun _ => .yield (.done 7)) 0
    fun _ => .runAll (.done 0)

theorem nested_main : nested.Main := ⟨⟨trivial, fun _ => trivial⟩, fun _ => trivial⟩

theorem nested_distinct {v : World}
    (reached : Transition.Reaches World.step (World.start nested) v) : v.Distinct :=
  distinct_of (reached.of_explore answers 20 answers_complete
    (by decide +kernel))

/-- The theorem at the call of `uthread_run_all` in `nested`. -/
theorem runAll_completes_run : ∃ w next,
    Transition.Reaches World.step (World.start nested) w ∧ w.step .granted = some next ∧
      Transition.Comes World.step MainRuns
        (fun v => v.running = ⟨none, .code (.done 0)⟩ ∧ v.Complete) next := by
  have reached : Transition.Reaches World.step (World.start nested) _ :=
    .next .start .granted rfl
  obtain ⟨next, stepped, comes⟩ :=
    @runAll_completes _ nested (.done 0) nested_main (fun _ => nested_distinct) reached rfl .granted
  exact ⟨_, next, reached, stepped, comes⟩

end World

end OperationSystems.UserThread
