import Mathlib.Algebra.GroupWithZero.Nat
import OperationSystems.UserThread.Yielding

/-!
# A stack of jobs

What the library amounts to when main only creates uthreads and runs them all, and
uthreads only create others and yield: a stack of uthreads that have not run. main takes
the uppermost one and waits; a uthread that ends hands over to the uppermost one, or to
main if there is none; a uthread that yields goes on. Links, saved contexts and `current`
do not occur.
-/

namespace OperationSystems.UserThread

/-- The uthread an event is about. -/
def Event.uthread : Event → Ptr
  | .resumed t | .entered t _ | .returned t _ => t

/-- The events of a uthread that has yielded so many times: it was switched to, called
its `start_routine` once, and was switched to again by each yield. -/
def ran (t : Ptr) (arg : Word) (yields : ℕ) : List Event :=
  .resumed t :: .entered t arg :: List.replicate yields (.resumed t)

/-- One more yield is one more resumption at the end of the log. -/
theorem ran_succ (t : Ptr) (arg : Word) (yields : ℕ) :
    ran t arg yields ++ [.resumed t] = ran t arg (yields + 1) := by
  simp [ran, List.replicate_succ']

/-- The code can come to return the result behind so many yields: which way it goes depends
on what its calls of `uthread_create` return. -/
inductive Code.Ends : Code → ℕ → Word → Prop
  | done (result : Word) : Ends (.done result) 0 result
  | create {t : Ptr} {startRoutine : Word → Code} {arg : Word} {next : Bool → Code} {yields : ℕ}
      {result : Word} (created : Bool) : Ends (next created) yields result →
        Ends (.create t startRoutine arg next) yields result
  | yield {next : Code} {yields : ℕ} {result : Word} : Ends next yields result →
      Ends (.yield next) (yields + 1) result

/-- The call of `start_routine` with `arg` can come to return `retval` behind so many yields. -/
def Uthread.Returns (u : Uthread) (yields : ℕ) : Prop :=
  ∀ startRoutine, u.startRoutine = some startRoutine → (startRoutine u.arg).Ends yields u.retval

/-- Where the code ends, the call of `start_routine` that has come to it behind so many yields
ends too. -/
def Uthread.Leads (u : Uthread) (yields : ℕ) (code : Code) : Prop :=
  ∀ startRoutine, u.startRoutine = some startRoutine → ∀ more result, code.Ends more result →
    (startRoutine u.arg).Ends (yields + more) result

/-- A creation brings a routine no further with its yields. -/
theorem Uthread.Leads.create {u : Uthread} {yields : ℕ} {t : Ptr} {startRoutine : Word → Code}
    {arg : Word} {next : Bool → Code} (leads : u.Leads yields (.create t startRoutine arg next))
    (created : Bool) : u.Leads yields (next created) :=
  fun routine is more result ends => leads routine is more result (.create created ends)

/-- A yield brings it one further. -/
theorem Uthread.Leads.yield {u : Uthread} {yields : ℕ} {next : Code}
    (leads : u.Leads yields (.yield next)) : u.Leads (yields + 1) next := by
  intro routine is more result ends
  rw [Nat.add_assoc, Nat.add_comm 1]
  exact leads routine is _ result (.yield ends)

/-- More than the steps that the code takes, and those of the uthreads that it creates. -/
def Code.weight : Code → ℕ
  | .done _ => 1
  | .create _ startRoutine arg next =>
      (startRoutine arg).weight + (next true).weight + (next false).weight + 5
  | .run _ next | .yield next | .runAll next => next.weight + 1

/-- `uthreads` have no links and contexts here. `waiting` is the uthread that main has
started in `uthread_run_all`, and what follows that call. -/
structure Roster where
  jobs : List Ptr
  uthreads : Ptr → Option Uthread
  running : Context
  waiting : Option (Ptr × Code)
  created : List Creation
  mallocs : List Ptr
  frees : List ℕ
  events : List Event

namespace Roster

/-! ## The moves -/

def goto (d : Roster) (point : Point) : Roster :=
  { d with running := { d.running with point := point } }

def install (d : Roster) (t : Ptr) (u : Uthread) : Roster :=
  { d with uthreads := Function.update d.uthreads t (some u) }

/-- A new uthread is put on the stack. -/
def create (d : Roster) (t : Ptr) (startRoutine : Word → Code) (arg : Word)
    (next : Bool → Code) : Answer → Roster
  | .noMemory => (d.install t zeroed).goto (.code (next false))
  | .noContext =>
      { (d.install t { zeroed with stack := some d.mallocs.length }).goto (.code (next false)) with
        mallocs := d.mallocs ++ [t]
        frees := d.frees ++ [d.mallocs.length] }
  | .granted =>
      { (d.install t { zeroed with
          stack := some d.mallocs.length
          startRoutine := some startRoutine
          arg := arg }).goto (.code (next true)) with
        jobs := t :: d.jobs
        created := d.created ++ [⟨t, startRoutine, arg⟩]
        mallocs := d.mallocs ++ [t] }

/-- A uthread runs for the first time. -/
def launch (d : Roster) (t : Ptr) (rest : List Ptr) : Option Roster :=
  (d.uthreads t).map fun u =>
    { d.install t { u with state := .running } with
      jobs := rest
      running := ⟨some t, .entry⟩
      events := d.events ++ [.resumed t] }

/-- A uthread ends with a result. -/
def finish (d : Roster) (self : Ptr) (u : Uthread) (result : Word) : Roster :=
  { d.install self { u with retval := result, state := .finished } with
    events := d.events ++ [.returned self result] }

/-- The stack of a uthread is freed. -/
def free (d : Roster) (t : Ptr) (u : Uthread) : Roster :=
  match u.stack with
  | some stack => { d.install t { u with stack := none } with frees := d.frees ++ [stack] }
  | none => d

def step (d : Roster) (answer : Answer) : Option Roster :=
  match d.running.point, d.running.owner with
  | .code (.create t startRoutine arg next), _ => some (d.create t startRoutine arg next answer)
  | .code (.runAll next), none => some (d.goto (.looping next))
  | .looping next, none =>
      match d.jobs with
      | [] => some (d.goto (.code next))
      | t :: rest => { d with waiting := some (t, next) }.launch t rest
  | .resumed t next, none => (d.uthreads t).map fun u => (d.free t u).goto (.looping next)
  | .entry, some self => do
      let u ← d.uthreads self
      let startRoutine ← u.startRoutine
      some { d.goto (.code (startRoutine u.arg)) with
        events := d.events ++ [.entered self u.arg] }
  | .code (.yield next), some self =>
      some { d.goto (.code next) with events := d.events ++ [.resumed self] }
  | .code (.done result), some self => do
      let u ← d.uthreads self
      match d.jobs with
      | [] => d.waiting.map fun (t, next) =>
          { d.finish self u result with running := ⟨none, .resumed t next⟩ }
      | t :: rest => (d.finish self u result).launch t rest
  | _, _ => none

/-! ## What is known of the uthreads -/

/-- The events of one uthread. -/
def history (d : Roster) (t : Ptr) : List Event := d.events.filter fun event => event.uthread = t

/-- A uthread has been created at the object. -/
def Enrolled (d : Roster) (t : Ptr) : Prop := ∃ u, d.uthreads t = some u ∧ u.Created

/-- Jobs have not run, and what is neither a job nor `busy` has ended. -/
structure Kept (d : Roster) (busy : Option Ptr) : Prop where
  jobs : ∀ t ∈ d.jobs, ∃ u, d.uthreads t = some u ∧ u.Created ∧ u.state = .ready ∧ d.history t = []
  nodup : d.jobs.Nodup
  blank : ∀ t, ¬ d.Enrolled t → d.history t = []
  ended : ∀ t u, d.uthreads t = some u → u.Created → t ∉ d.jobs → busy ≠ some t →
    u.state = .finished ∧ ∃ yields, u.Returns yields ∧
      d.history t = ran t u.arg yields ++ [.returned t u.retval]
  routines : ∀ t u startRoutine, d.uthreads t = some u → u.startRoutine = some startRoutine →
    (startRoutine u.arg).Worker

/-- How far a uthread that runs has come. -/
def Underway (d : Roster) (self : Ptr) (u : Uthread) : Prop :=
  match d.running.point with
  | .entry => d.history self = [.resumed self]
  | .code code => code.Worker ∧ ∃ yields, u.Leads yields code ∧
      d.history self = ran self u.arg yields
  | _ => False

/-- Who runs: main, which goes on behind its `swapcontext` only with no jobs left, or a
uthread, for which main waits. -/
structure Sound (d : Roster) : Prop where
  kept : d.Kept d.running.owner
  main : d.running.owner = none → d.running.point.InMain ∧
    ∀ t next, d.running.point = .resumed t next → d.jobs = [] ∧ d.Enrolled t
  uthread : ∀ self, d.running.owner = some self → self ∉ d.jobs ∧
    (∃ u, d.uthreads self = some u ∧ u.Created ∧ u.state = .running ∧ d.Underway self u) ∧
      ∃ t next, d.waiting = some (t, next) ∧ next.Main ∧ t ∉ d.jobs ∧ d.Enrolled t

/-- `uthread_create` is not called on an object where there is a uthread. -/
def Distinct (d : Roster) : Prop :=
  match d.running.point with
  | .code (.create t _ _ _) => ¬ d.Enrolled t
  | _ => True

variable {d next : Roster} {t x self : Ptr} {u v : Uthread} {code : Code} {busy : Option Ptr}

/-! ## Small facts -/

/-- What is there behind the creation of an object: the new one, or what was there. -/
theorem uthreads_install_cases (held : (d.install t v).uthreads x = some u) :
    x = t ∧ u = v ∨ x ≠ t ∧ d.uthreads x = some u := by
  by_cases same : x = t
  · subst same
    have held : Function.update d.uthreads x (some v) x = some u := held
    rw [Function.update_self] at held
    exact .inl ⟨rfl, (Option.some.inj held).symm⟩
  · exact .inr ⟨same, (Function.update_of_ne same _ _).symm.trans held⟩

theorem uthreads_install_self : (d.install t v).uthreads t = some v := Function.update_self ..

theorem uthreads_install_of_ne (apart : x ≠ t) : (d.install t v).uthreads x = d.uthreads x :=
  Function.update_of_ne apart _ _

/-- An event is the last one of its own uthread, and of no other. -/
theorem history_append (event : Event) :
    ({ d with events := d.events ++ [event] } : Roster).history x =
      d.history x ++ if event.uthread = x then [event] else [] := by
  unfold history
  rw [List.filter_append]
  by_cases own : event.uthread = x <;> simp [own]

/-- Storing a created object unenrolls nobody. -/
theorem Enrolled.install (known : d.Enrolled x) (created : v.Created) :
    (d.install t v).Enrolled x := by
  by_cases same : x = t
  · subst same
    exact ⟨v, uthreads_install_self, created⟩
  · obtain ⟨u, here, created⟩ := known
    exact ⟨u, (uthreads_install_of_ne same).trans here, created⟩

/-- main is about to run. -/
def start (main : Code) : Roster := ⟨[], fun _ => none, ⟨none, .code main⟩, none, [], [], [], []⟩

theorem Kept.start : (start code).Kept none where
  jobs := fun _ member => by cases member
  nodup := List.nodup_nil
  blank := fun _ _ => rfl
  ended := fun _ _ held => by cases held
  routines := fun _ _ _ held => by cases held

theorem Sound.start (isMain : code.Main) : (start code).Sound where
  kept := .start
  main := fun _ => ⟨isMain, fun _ _ is => by cases is⟩
  uthread := fun _ is => by cases is

/-! ## What the moves keep -/

/-- `Kept` is about the jobs, the uthreads and the events. -/
theorem Kept.congr (kept : d.Kept busy) (jobs : next.jobs = d.jobs)
    (uthreads : next.uthreads = d.uthreads) (events : next.events = d.events) :
    next.Kept busy := by
  cases d
  cases next
  subst jobs uthreads events
  exact ⟨kept.jobs, kept.nodup, kept.blank, kept.ended, kept.routines⟩

/-- A uthread that is no job any more is written, and what happens to it is logged. -/
theorem Kept.update (kept : d.Kept busy) (v : Uthread) (event : Event) (other : Option Ptr)
    (here : d.uthreads t = some u) (created : u.Created) (own : event.uthread = t)
    (routine : v.startRoutine = u.startRoutine) (arg : v.arg = u.arg)
    (idle : ∀ y ≠ t, other ≠ some y → busy ≠ some y)
    (ended : other ≠ some t → v.state = .finished ∧ ∃ yields, v.Returns yields ∧
      d.history t ++ [event] = ran t v.arg yields ++ [.returned t v.retval]) :
    ({ d.install t v with
      jobs := d.jobs.erase t
      events := d.events ++ [event] } : Roster).Kept other := by
  have created' : v.Created := by
    unfold Uthread.Created
    rw [routine]
    exact created
  have others : ∀ {y}, y ≠ t →
      ({ d with events := d.events ++ [event] } : Roster).history y = d.history y := by
    intro y apart
    rw [history_append, own]
    simp [Ne.symm apart]
  refine ⟨fun y member => ?_, kept.nodup.erase t, fun y absent => ?_,
    fun y x held isCreated out free => ?_, fun y x startRoutine held is => ?_⟩
  · obtain ⟨apart, job⟩ := kept.nodup.mem_erase_iff.mp member
    obtain ⟨x, there, facts, state, nothing⟩ := kept.jobs y job
    exact ⟨x, (uthreads_install_of_ne apart).trans there, facts, state,
      (others apart).trans nothing⟩
  · have apart : y ≠ t := by
      rintro rfl
      exact absent ⟨v, uthreads_install_self, created'⟩
    exact (others apart).trans (kept.blank y fun known => absent (known.install created'))
  · obtain ⟨rfl, rfl⟩ | ⟨apart, there⟩ := uthreads_install_cases (d := d) held
    · obtain ⟨state, yields, returns, log⟩ := ended free
      refine ⟨state, yields, returns, Eq.trans ?_ log⟩
      exact (history_append (d := d) event).trans (by rw [if_pos own])
    · have outside : y ∉ d.jobs := fun job => out (kept.nodup.mem_erase_iff.mpr ⟨apart, job⟩)
      obtain ⟨state, yields, returns, log⟩ :=
        kept.ended y x there isCreated outside (idle y apart free)
      exact ⟨state, yields, returns, (others apart).trans log⟩
  · obtain ⟨rfl, rfl⟩ | ⟨_, there⟩ := uthreads_install_cases (d := d) held
    · rw [arg]
      exact kept.routines y u startRoutine here (routine.symm.trans is)
    · exact kept.routines y x startRoutine there is

/-- The uppermost job runs. -/
theorem Kept.launch {rest : List Ptr} (kept : d.Kept none) (jobs : d.jobs = t :: rest)
    (waits : ∃ x next, d.waiting = some (x, next) ∧ next.Main ∧ x ∉ rest ∧ d.Enrolled x) :
    ∃ next, d.launch t rest = some next ∧ next.Sound := by
  have distinct := kept.nodup
  rw [jobs, List.nodup_cons] at distinct
  obtain ⟨u, here, created, _, before⟩ := kept.jobs t (jobs ▸ List.mem_cons_self)
  have kept' := kept.update { u with state := .running } (.resumed t) (some t) here created rfl rfl
    rfl (fun _ _ _ => by simp) fun idle => absurd rfl idle
  rw [jobs, List.erase_cons_head] at kept'
  have moved : d.launch t rest = some { d.install t { u with state := .running } with
      jobs := rest
      running := ⟨some t, .entry⟩
      events := d.events ++ [.resumed t] } := by
    rw [Roster.launch, here]
    rfl
  refine ⟨_, moved, kept'.congr rfl rfl rfl, fun is => (by cases is), fun self is => ?_⟩
  obtain rfl := Option.some.inj is
  obtain ⟨x, next, waiting, isMain, off, known⟩ := waits
  refine ⟨distinct.1, ⟨_, uthreads_install_self, created, rfl, ?_⟩, x, next, waiting, isMain, off,
    known.install created⟩
  change ({ d with events := d.events ++ [.resumed t] } : Roster).history t = [.resumed t]
  rw [history_append, before]
  simp [Event.uthread]

/-- The uthread that runs ends. -/
theorem Kept.finish {yields : ℕ} (kept : d.Kept (some self)) (result : Word) (off : self ∉ d.jobs)
    (here : d.uthreads self = some u) (created : u.Created)
    (leads : u.Leads yields (.done result))
    (log : d.history self = ran self u.arg yields) : (d.finish self u result).Kept none := by
  have kept' := kept.update { u with retval := result, state := .finished }
    (.returned self result) none here created rfl rfl rfl
    (fun y apart _ same => apart (Option.some.inj same).symm) fun _ => ⟨rfl, yields,
      fun routine is => leads routine is 0 result (.done result), by rw [log]⟩
  rw [List.erase_of_not_mem off] at kept'
  exact kept'.congr rfl rfl rfl

/-- What is left where no uthread was created. -/
theorem Kept.refuse (kept : d.Kept busy) (off : ¬ d.Enrolled t) (none : v.startRoutine = none) :
    (d.install t v).Kept busy := by
  have same : ∀ {y}, d.Enrolled y → (d.install t v).uthreads y = d.uthreads y := by
    intro y known
    apply uthreads_install_of_ne
    rintro rfl
    exact off known
  have unchanged : ∀ {y u}, (d.install t v).uthreads y = some u → u.Created →
      d.uthreads y = some u := by
    intro y u held created
    obtain ⟨_, rfl⟩ | ⟨_, there⟩ := uthreads_install_cases held
    · unfold Uthread.Created at created
      rw [none] at created
      cases created
    · exact there
  refine ⟨fun y member => ?_, kept.nodup, fun y absent => kept.blank y fun known => ?_,
    fun y u held created => kept.ended y u (unchanged held created) created,
    fun y u routine held is => ?_⟩
  · obtain ⟨u, there, created, rest⟩ := kept.jobs y member
    exact ⟨u, (same ⟨u, there, created⟩).trans there, created, rest⟩
  · obtain ⟨u, there, created⟩ := known
    exact absent ⟨u, (same ⟨u, there, created⟩).trans there, created⟩
  · exact kept.routines y u routine (unchanged held (by rw [Uthread.Created, is]; rfl)) is

/-- A new uthread is a job. -/
theorem Kept.enroll (kept : d.Kept busy) (off : ¬ d.Enrolled t) (created : v.Created)
    (ready : v.state = .ready)
    (worker : ∀ startRoutine, v.startRoutine = some startRoutine → (startRoutine v.arg).Worker) :
    ({ d.install t v with jobs := t :: d.jobs } : Roster).Kept busy := by
  have same : ∀ {y}, y ≠ t → (d.install t v).uthreads y = d.uthreads y := uthreads_install_of_ne
  have notJob : t ∉ d.jobs := by
    intro member
    obtain ⟨u, here, created, _⟩ := kept.jobs t member
    exact off ⟨u, here, created⟩
  refine ⟨fun y member => ?_, List.nodup_cons.mpr ⟨notJob, kept.nodup⟩, fun y absent => ?_,
    fun y u held isCreated out => ?_, fun y u routine held is => ?_⟩
  · obtain rfl | later := List.mem_cons.mp member
    · exact ⟨v, uthreads_install_self, created, ready, kept.blank y off⟩
    · obtain ⟨u, there, rest⟩ := kept.jobs y later
      refine ⟨u, (same ?_).trans there, rest⟩
      rintro rfl
      exact notJob later
  · exact kept.blank y fun known => absent (known.install created)
  · obtain ⟨rfl, _⟩ | ⟨_, there⟩ := uthreads_install_cases (d := d) held
    · exact absurd List.mem_cons_self out
    · exact kept.ended y u there isCreated fun member => out (List.mem_cons_of_mem _ member)
  · obtain ⟨_, rfl⟩ | ⟨_, there⟩ := uthreads_install_cases (d := d) held
    · exact worker routine is
    · exact kept.routines y u routine there is

/-- A step of what runs before `uthread_create`, by main or by a uthread. -/
theorem Sound.create {startRoutine : Word → Code} {arg : Word} {after : Bool → Code}
    (sound : d.Sound) (place : d.running.point = .code (.create t startRoutine arg after))
    (off : ¬ d.Enrolled t) (answer : Answer) :
    (d.create t startRoutine arg after answer).Sound := by
  have worker : (startRoutine arg).Worker ∧ (d.running.owner = none → ∀ created,
      (after created).Main) ∧ ((∃ self, d.running.owner = some self) → ∀ created,
        (after created).Worker) := by
    cases owner : d.running.owner with
    | none =>
        have isMain := (sound.main owner).1
        rw [place] at isMain
        exact ⟨isMain.1, fun _ => isMain.2, fun ⟨_, is⟩ => (by cases is)⟩
    | some self =>
        obtain ⟨_, ⟨u, _, _, _, underway⟩, _⟩ := sound.uthread self owner
        unfold Underway at underway
        rw [place] at underway
        exact ⟨underway.1.1, fun is => (by cases is), fun _ => underway.1.2⟩
  -- the uthread that runs and the one main waits for are others
  have turn : ∀ (v : Uthread) (jobs : List Ptr) (created : Bool) (next : Roster),
      (∀ x ∈ jobs, x = t ∨ x ∈ d.jobs) →
      next.uthreads = (d.install t v).uthreads → next.jobs = jobs →
      next.running = ⟨d.running.owner, .code (after created)⟩ → next.waiting = d.waiting →
      next.events = d.events → next.Kept d.running.owner → next.Sound := by
    rintro v jobs created next fewer uthreads rfl running waiting events kept
    have same : ∀ {y u}, d.uthreads y = some u → u.Created → next.uthreads y = some u := by
      intro y u there isCreated
      rw [uthreads]
      refine (uthreads_install_of_ne ?_).trans there
      rintro rfl
      exact off ⟨u, there, isCreated⟩
    have outside : ∀ {y}, d.Enrolled y → y ∉ d.jobs → y ∉ next.jobs := by
      intro y known notJob member
      obtain rfl | before := fewer y member
      · exact off known
      · exact notJob before
    refine ⟨by rwa [running], fun owner => ?_, fun self owner => ?_⟩
    · rw [running] at owner ⊢
      exact ⟨worker.2.1 owner created, fun _ _ is => by cases is⟩
    · rw [running] at owner
      obtain ⟨notJob, ⟨u, there, isCreated, state, underway⟩, x, code, waits, isMain, notJob', u',
        there', isCreated'⟩ := sound.uthread self owner
      refine ⟨outside ⟨u, there, isCreated⟩ notJob, ⟨u, same there isCreated, isCreated, state, ?_⟩,
        x, code, waiting.trans waits, isMain, outside ⟨u', there', isCreated'⟩ notJob', u',
        same there' isCreated', isCreated'⟩
      unfold Underway history at underway ⊢
      rw [place] at underway
      rw [running, events]
      obtain ⟨_, yields, leads, log⟩ := underway
      exact ⟨worker.2.2 ⟨self, owner⟩ created, yields, leads.create created, log⟩
  cases answer with
  | granted =>
      have kept := sound.kept.enroll (v := { zeroed with
        stack := some d.mallocs.length
        startRoutine := some startRoutine
        arg := arg }) off rfl rfl fun routine is => by
          cases is
          exact worker.1
      exact turn _ (t :: d.jobs) true _ (fun x member => List.mem_cons.mp member) rfl rfl rfl rfl
        rfl (kept.congr rfl rfl rfl)
  | noMemory =>
      have kept := sound.kept.refuse (v := zeroed) off rfl
      exact turn _ d.jobs false _ (fun x member => .inr member) rfl rfl rfl rfl rfl
        (kept.congr rfl rfl rfl)
  | noContext =>
      have kept := sound.kept.refuse (v := { zeroed with stack := some d.mallocs.length }) off rfl
      exact turn _ d.jobs false _ (fun x member => .inr member) rfl rfl rfl rfl rfl
        (kept.congr rfl rfl rfl)

/-- `free` changes nothing but the field `stack`. -/
theorem free_same (d : Roster) (here : d.uthreads t = some u) :
    ∃ stack, (d.free t u).uthreads = Function.update d.uthreads t (some { u with stack := stack }) ∧
      (d.free t u).jobs = d.jobs ∧ (d.free t u).running = d.running ∧
        (d.free t u).events = d.events := by
  unfold free
  split
  · exact ⟨none, rfl, rfl, rfl, rfl⟩
  · exact ⟨u.stack, (Function.update_eq_self_iff.mpr here.symm).symm, rfl, rfl, rfl⟩

/-- main behind its `swapcontext`. -/
theorem Kept.free (kept : d.Kept none) (here : d.uthreads t = some u) :
    (d.free t u).Kept none := by
  obtain ⟨stack, uthreads, jobs, _, events⟩ := d.free_same here
  have log : ∀ y, (d.free t u).history y = d.history y := fun y => by
    unfold history
    rw [events]
  have lookup : ∀ {y v}, (d.free t u).uthreads y = some v → ∃ v', d.uthreads y = some v' ∧
      v = { v' with stack := v.stack } := by
    intro y v held
    rw [uthreads] at held
    obtain ⟨rfl, rfl⟩ | ⟨_, there⟩ := uthreads_install_cases (d := d) held
    · exact ⟨u, here, rfl⟩
    · exact ⟨v, there, rfl⟩
  have back : ∀ {y v'}, d.uthreads y = some v' → ∃ stack, (d.free t u).uthreads y =
      some { v' with stack := stack } := by
    intro y v' held
    by_cases same : y = t
    · subst same
      obtain rfl := Option.some.inj (here.symm.trans held)
      exact ⟨stack, by rw [uthreads, Function.update_self]⟩
    · exact ⟨v'.stack, by rw [uthreads, Function.update_of_ne same, held]⟩
  refine ⟨fun y member => ?_, jobs ▸ kept.nodup, fun y absent => ?_,
    fun y v held isCreated out _ => ?_, fun y v routine held is => ?_⟩
  · obtain ⟨v, there, facts, state, nothing⟩ := kept.jobs y (jobs ▸ member)
    obtain ⟨stack, there⟩ := back there
    exact ⟨_, there, facts, state, (log y).trans nothing⟩
  · rw [log]
    refine kept.blank y fun ⟨v, there, isCreated⟩ => ?_
    obtain ⟨stack, there⟩ := back there
    exact absent ⟨_, there, isCreated⟩
  · obtain ⟨v', there, same⟩ := lookup held
    rw [log]
    rw [same] at isCreated ⊢
    exact kept.ended y v' there isCreated (jobs ▸ out) (by simp)
  · obtain ⟨v', there, same⟩ := lookup held
    rw [same] at is ⊢
    exact kept.routines y v' routine there is

/-- What happens to the uthread that runs is not logged for any other. -/
theorem Kept.log {event : Event} (kept : d.Kept (some self)) (off : self ∉ d.jobs)
    (known : d.Enrolled self) (own : event.uthread = self) :
    ({ d with events := d.events ++ [event] } : Roster).Kept (some self) := by
  obtain ⟨u, here, created⟩ := known
  have kept' := kept.update u event (some self) here created own rfl rfl (fun _ _ idle => idle)
    fun idle => absurd rfl idle
  rw [List.erase_of_not_mem off] at kept'
  exact kept'.congr rfl (Function.update_eq_self_iff.mpr here.symm).symm rfl

/-- main waits behind its `swapcontext`, or a uthread runs in its place. -/
theorem Sound.step_main (sound : d.Sound) (owner : d.running.owner = none) (distinct : d.Distinct)
    (answer : Answer) : (∃ result, d.running.point = .code (.done result)) ∨
      ∃ next, d.step answer = some next ∧ next.Sound := by
  obtain ⟨place, back⟩ := sound.main owner
  have kept : d.Kept none := owner ▸ sound.kept
  have remains : ∀ point : Point, point.InMain → (∀ t next, point ≠ .resumed t next) →
      (d.goto point).Sound := by
    intro point isMain apart
    refine ⟨?_, fun _ => ⟨isMain, fun t next is => absurd is (apart t next)⟩, fun self is => ?_⟩
    · rw [show (d.goto point).running.owner = none from owner]
      exact kept.congr rfl rfl rfl
    · cases owner.symm.trans is
  unfold Roster.step
  cases point : d.running.point with
  | code code =>
      rw [point] at place
      cases code with
      | done result => exact .inl ⟨result, rfl⟩
      | create t startRoutine arg after =>
          unfold Distinct at distinct
          rw [point] at distinct
          exact .inr ⟨_, rfl, sound.create point distinct answer⟩
      | run => exact place.elim
      | yield => exact place.elim
      | runAll after =>
          refine .inr ⟨_, by rw [owner], remains (.looping after) place ?_⟩
          rintro t next ⟨⟩
  | looping after =>
      rw [point] at place
      right
      simp only [owner]
      cases jobs : d.jobs with
      | nil =>
          refine ⟨_, rfl, remains (.code after) place ?_⟩
          rintro t next ⟨⟩
      | cons t rest =>
          have distinct := kept.nodup
          rw [jobs, List.nodup_cons] at distinct
          obtain ⟨u, here, created, _⟩ := kept.jobs t (jobs ▸ List.mem_cons_self)
          have kept' : ({ d with waiting := some (t, after) } : Roster).Kept none :=
            kept.congr rfl rfl rfl
          exact kept'.launch jobs ⟨t, after, rfl, place, distinct.1, u, here, created⟩
  | resumed t after =>
      rw [point] at place
      right
      obtain ⟨jobs, u, here, created⟩ := back t after point
      obtain ⟨stack, _, jobs', running, _⟩ := d.free_same here
      refine ⟨(d.free t u).goto (.looping after), by simp only [owner, here, Option.map_some], ?_,
        fun _ => ⟨place, ?_⟩, fun self is => ?_⟩
      · have owner' : ((d.free t u).goto (.looping after)).running.owner = none := by
          change (d.free t u).running.owner = none
          rw [running, owner]
        rw [owner']
        have kept' := kept.free here
        exact kept'.congr rfl rfl rfl
      · rintro x next ⟨⟩
      · have is : (d.free t u).running.owner = some self := is
        rw [running, owner] at is
        cases is
  | entry =>
      rw [point] at place
      exact place.elim
  | ended =>
      rw [point] at place
      exact place.elim

/-- **A uthread goes on** with its routine and with nothing else. -/
theorem Sound.step_uthread (sound : d.Sound) (owner : d.running.owner = some self)
    (distinct : d.Distinct) (answer : Answer) :
    ∃ next, d.step answer = some next ∧ next.Sound := by
  obtain ⟨off, ⟨u, here, created, state, underway⟩, waits⟩ := sound.uthread self owner
  have kept : d.Kept (some self) := owner ▸ sound.kept
  have goes : ∀ {event : Event} {next : Code}, event.uthread = self → next.Worker →
      (∃ yields, u.Leads yields next ∧ d.history self ++ [event] = ran self u.arg yields) →
      ({ d.goto (.code next) with events := d.events ++ [event] } : Roster).Sound := by
    rintro event next own worker ⟨yields, leads, log⟩
    have kept' := kept.log off ⟨u, here, created⟩ own
    have owner' : (d.goto (.code next)).running.owner = some self := owner
    refine ⟨?_, fun is => ?_, fun x is => ?_⟩
    · rw [owner']
      exact kept'.congr rfl rfl rfl
    · cases owner'.symm.trans is
    · obtain rfl := Option.some.inj (owner'.symm.trans is)
      refine ⟨off, ⟨u, here, created, state, worker, yields, leads, ?_⟩, waits⟩
      refine Eq.trans ?_ log
      exact (history_append (d := d) event).trans (by rw [if_pos own])
  unfold Underway at underway
  unfold Roster.step
  cases point : d.running.point with
  | entry =>
      rw [point] at underway
      obtain ⟨startRoutine, routine⟩ := Option.isSome_iff_exists.mp created
      refine ⟨_, by simp only [owner, here, Option.bind_eq_bind, Option.bind_some, routine]; rfl,
        goes rfl (kept.routines self u startRoutine here routine) ⟨0, ?_, ?_⟩⟩
      · intro other is more result ends
        obtain rfl := Option.some.inj (routine.symm.trans is)
        rwa [Nat.zero_add]
      · rw [underway]
        rfl
  | looping after => rw [point] at underway; exact underway.elim
  | resumed t after => rw [point] at underway; exact underway.elim
  | ended => rw [point] at underway; exact underway.elim
  | code code =>
      rw [point] at underway
      obtain ⟨worker, yields, leads, log⟩ := underway
      cases code with
      | create t startRoutine arg after =>
          unfold Distinct at distinct
          rw [point] at distinct
          exact ⟨_, rfl, sound.create point distinct answer⟩
      | run => exact worker.elim
      | runAll => exact worker.elim
      | yield after =>
          refine ⟨{ d.goto (.code after) with events := d.events ++ [.resumed self] },
            by simp only [owner], goes rfl worker ⟨yields + 1, leads.yield, ?_⟩⟩
          rw [log, ran_succ]
      | done result =>
          have kept' := kept.finish result off here created leads log
          obtain ⟨x, after, waiting, isMain, notJob, known⟩ := waits
          have known' : (d.finish self u result).Enrolled x := known.install created
          simp only [owner, here, Option.bind_eq_bind, Option.bind_some]
          cases jobs : d.jobs with
          | nil =>
              refine ⟨{ d.finish self u result with running := ⟨none, .resumed x after⟩ },
                by simp only [waiting, Option.map_some], ?_, fun _ => ⟨isMain, ?_⟩,
                fun x is => (by cases is)⟩
              · exact kept'.congr rfl rfl rfl
              · rintro y next ⟨⟩
                exact ⟨jobs, known'⟩
          | cons t rest =>
              refine kept'.launch jobs ⟨x, after, waiting, isMain, fun member => notJob ?_, known'⟩
              exact jobs ▸ List.mem_cons_of_mem _ member

/-- **The step.** Unless main has returned, there is one. -/
theorem Sound.step (sound : d.Sound) (distinct : d.Distinct) (answer : Answer) :
    (∃ result, d.running = ⟨none, .code (.done result)⟩) ∨
      ∃ next, d.step answer = some next ∧ next.Sound := by
  cases owner : d.running.owner with
  | none =>
      obtain ⟨result, point⟩ | moves := sound.step_main owner distinct answer
      · exact .inl ⟨result, by rw [← owner, ← point]⟩
      · exact .inr moves
  | some self => exact .inr (sound.step_uthread owner distinct answer)

/-! ## What has been created -/

/-- What `uthread_create` was given for the uthread. -/
def tasks (d : Roster) (t : Ptr) : Option (Option (Word → Code) × Word) :=
  (d.uthreads t).map fun u => (u.startRoutine, u.arg)

/-- The uthreads are those of the calls that have returned 0, one for each. -/
structure Listed (d : Roster) : Prop where
  nodup : (d.created.map Creation.object).Nodup
  calls : ∀ c ∈ d.created, d.tasks c.object = some (some c.startRoutine, c.arg)
  uthreads : ∀ t startRoutine arg, d.tasks t = some (some startRoutine, arg) →
    ⟨t, startRoutine, arg⟩ ∈ d.created

theorem Listed.start : (start code).Listed where
  nodup := List.nodup_nil
  calls := fun _ member => by cases member
  uthreads := fun _ _ _ held => by cases held

/-- `Listed` is about the calls and what these were given. -/
theorem Listed.congr (listed : d.Listed) (created : next.created = d.created)
    (tasks : next.tasks = d.tasks) : next.Listed := by
  refine ⟨?_, ?_, ?_⟩
  · rw [created]
    exact listed.nodup
  · rw [created, tasks]
    exact listed.calls
  · rw [created, tasks]
    exact listed.uthreads

/-- A write that keeps `start_routine` and `arg`. -/
theorem tasks_install (here : d.uthreads t = some u)
    (same : (v.startRoutine, v.arg) = (u.startRoutine, u.arg)) :
    (d.install t v).tasks = d.tasks := by
  funext x
  unfold tasks
  by_cases equal : x = t
  · subst equal
    rw [uthreads_install_self, here, Option.map_some, Option.map_some, same]
  · rw [uthreads_install_of_ne equal]

/-- Starting a uthread creates nothing and changes no task. -/
theorem tasks_launch {rest : List Ptr} (done : d.launch t rest = some next) :
    next.created = d.created ∧ next.tasks = d.tasks := by
  obtain ⟨u, here, rfl⟩ := Option.map_eq_some_iff.mp done
  exact ⟨rfl, tasks_install (v := { u with state := .running }) here rfl⟩

theorem tasks_free (here : d.uthreads t = some u) :
    (d.free t u).created = d.created ∧ (d.free t u).tasks = d.tasks := by
  unfold free
  split
  · exact ⟨rfl, tasks_install (v := { u with stack := none }) here rfl⟩
  · exact ⟨rfl, rfl⟩

/-- Only `uthread_create` says what a uthread is to do. -/
theorem step_tasks {answer : Answer} (done : d.step answer = some next)
    (other : ∀ t startRoutine arg after,
      d.running.point ≠ .code (.create t startRoutine arg after)) :
    next.created = d.created ∧ next.tasks = d.tasks := by
  unfold Roster.step at done
  split at done
  · rename_i t startRoutine arg after point
    exact absurd point (other t startRoutine arg after)
  · obtain rfl := Option.some.inj done
    exact ⟨rfl, rfl⟩
  · rename_i after _ _
    split at done
    · obtain rfl := Option.some.inj done
      exact ⟨rfl, rfl⟩
    · rename_i t rest _
      exact tasks_launch (d := { d with waiting := some (t, after) }) done
  · obtain ⟨u, here, rfl⟩ := Option.map_eq_some_iff.mp done
    exact tasks_free here
  · obtain ⟨u, _, rest⟩ := Option.bind_eq_some_iff.mp done
    obtain ⟨startRoutine, _, rest⟩ := Option.bind_eq_some_iff.mp rest
    obtain rfl := Option.some.inj rest
    exact ⟨rfl, rfl⟩
  · obtain rfl := Option.some.inj done
    exact ⟨rfl, rfl⟩
  · rename_i result self _ _
    obtain ⟨u, here, rest⟩ := Option.bind_eq_some_iff.mp done
    have ended : (d.finish self u result).tasks = d.tasks := tasks_install here rfl
    split at rest
    · obtain ⟨⟨x, after⟩, _, rfl⟩ := Option.map_eq_some_iff.mp rest
      exact ⟨rfl, ended⟩
    · obtain ⟨created, tasks⟩ := tasks_launch rest
      exact ⟨created, tasks.trans ended⟩
  · cases done

/-- A call of `uthread_create` on an object where there is no uthread. -/
theorem Listed.create {startRoutine : Word → Code} {arg : Word} {after : Bool → Code}
    (listed : d.Listed) (off : ¬ d.Enrolled t) (answer : Answer) :
    (d.create t startRoutine arg after answer).Listed := by
  have fresh : ∀ startRoutine arg, d.tasks t ≠ some (some startRoutine, arg) := by
    intro startRoutine arg held
    obtain ⟨u, here, task⟩ := Option.map_eq_some_iff.mp held
    have routine : u.startRoutine = some startRoutine := congrArg Prod.fst task
    exact off ⟨u, here, by rw [Uthread.Created, routine]; rfl⟩
  have others : ∀ {v : Uthread} {x}, x ≠ t → (d.install t v).tasks x = d.tasks x := fun apart => by
    unfold tasks
    rw [uthreads_install_of_ne apart]
  have own : ∀ {v : Uthread}, (d.install t v).tasks t = some (v.startRoutine, v.arg) := by
    intro v
    unfold tasks
    rw [uthreads_install_self]
    rfl
  have unborn : ∀ c ∈ d.created, c.object ≠ t := by
    rintro c member rfl
    exact fresh _ _ (listed.calls c member)
  have refused : ∀ {v : Uthread}, v.startRoutine = none → (d.install t v).Listed := by
    intro v routine
    refine ⟨listed.nodup, fun c member => ?_, fun x startRoutine arg held => ?_⟩
    · exact (others (unborn c member)).trans (listed.calls c member)
    · by_cases equal : x = t
      · subst equal
        rw [own, routine] at held
        cases held
      · exact listed.uthreads x startRoutine arg ((others equal).symm.trans held)
  cases answer with
  | noMemory => exact (refused rfl).congr rfl rfl
  | noContext => exact (refused rfl).congr rfl rfl
  | granted =>
      refine ⟨?_, fun c member => ?_, fun x routine arg' held => ?_⟩
      · change ((d.created ++ [_]).map Creation.object).Nodup
        rw [List.map_append]
        refine List.nodup_append.mpr ⟨listed.nodup, List.nodup_singleton _, ?_⟩
        rintro x member y last rfl
        obtain ⟨c, before, rfl⟩ := List.mem_map.mp member
        exact unborn c before (List.mem_singleton.mp last)
      · obtain before | now := List.mem_append.mp member
        · exact (others (unborn c before)).trans (listed.calls c before)
        · obtain rfl := List.mem_singleton.mp now
          exact own
      · apply List.mem_append.mpr
        by_cases equal : x = t
        · subst equal
          cases own.symm.trans held
          exact .inr (List.mem_singleton_self _)
        · exact .inl (listed.uthreads x routine arg' ((others equal).symm.trans held))

/-- **The step lemma.** The tasks stay those of the creations. -/
theorem Listed.step {answer : Answer} (listed : d.Listed) (distinct : d.Distinct)
    (done : d.step answer = some next) : next.Listed := by
  by_cases calls : ∃ t startRoutine arg after,
      d.running.point = .code (.create t startRoutine arg after)
  · obtain ⟨t, startRoutine, arg, after, point⟩ := calls
    unfold Distinct at distinct
    unfold Roster.step at done
    rw [point] at distinct done
    obtain rfl := Option.some.inj done
    exact listed.create distinct answer
  · push Not at calls
    obtain ⟨created, tasks⟩ := step_tasks done calls
    exact listed.congr created tasks

/-! ## `uthread_run_all` ends -/

/-- main is in the loop of `uthread_run_all`, or waits there. -/
def Inside (d : Roster) (after : Code) : Prop :=
  match d.running.owner with
  | none => d.running.point = .looping after ∨ ∃ t, d.running.point = .resumed t after
  | some _ => ∃ t, d.waiting = some (t, after)

/-- What a uthread that has not run will do. -/
def load (d : Roster) (t : Ptr) : ℕ :=
  match d.uthreads t with
  | some u => (u.startRoutine.map fun startRoutine => (startRoutine u.arg).weight + 4).getD 0
  | none => 0

/-- What is left to do before `uthread_run_all` returns. -/
def measure (d : Roster) : ℕ :=
  (match d.running.point, d.running.owner with
    | .looping _, _ => 1
    | .resumed _ _, _ => 2
    | .entry, some self => d.load self - 1
    | .code code, _ => code.weight + 2
    | _, _ => 0) + (d.jobs.map d.load).sum

/-- An object with the same routine and argument has the same load. -/
theorem load_install (here : d.uthreads t = some u) (routine : v.startRoutine = u.startRoutine)
    (arg : v.arg = u.arg) : (d.install t v).load = d.load := by
  funext x
  unfold load
  by_cases same : x = t
  · subst same
    rw [uthreads_install_self, here]
    simp only [routine, arg]
  · rw [uthreads_install_of_ne same]

/-- Freeing a stack changes no load. -/
theorem load_free (here : d.uthreads t = some u) : (d.free t u).load = d.load := by
  obtain ⟨stack, uthreads, _⟩ := d.free_same here
  rw [← load_install (v := { u with stack := stack }) here rfl rfl]
  funext x
  unfold load
  rw [uthreads]
  rfl

/-- A write where there is no job leaves what the jobs will do. -/
theorem load_off (off : t ∉ d.jobs) : d.jobs.map (d.install t v).load = d.jobs.map d.load := by
  refine List.map_congr_left fun x member => ?_
  unfold load
  rw [uthreads_install_of_ne]
  rintro rfl
  exact off member

/-- A created uthread that has not run has at least its switches ahead of it. -/
theorem Kept.load_pos (created : u.Created) (here : d.uthreads t = some u) : 4 < d.load t := by
  obtain ⟨startRoutine, routine⟩ := Option.isSome_iff_exists.mp created
  have positive : 0 < (startRoutine u.arg).weight := by
    cases startRoutine u.arg <;> simp [Code.weight]
  simp [load, here, routine, positive]

/-- A job that is taken from the stack takes its load with it. -/
theorem measure_launch {rest : List Ptr} (kept : d.Kept none) (jobs : d.jobs = t :: rest)
    (done : d.launch t rest = some next) : next.measure + 1 = (d.jobs.map d.load).sum ∧
      next.waiting = d.waiting ∧ next.running.owner = some t := by
  obtain ⟨u, here, created, _⟩ := kept.jobs t (jobs ▸ List.mem_cons_self)
  have positive := Kept.load_pos created here
  unfold launch at done
  rw [here] at done
  obtain rfl := Option.some.inj done
  refine ⟨?_, rfl, rfl⟩
  have same : (d.install t { u with state := .running }).load = d.load :=
    load_install here rfl rfl
  rw [jobs]
  change (d.install t { u with state := .running }).load t - 1 +
    (rest.map (d.install t { u with state := .running }).load).sum + 1 = _
  rw [same, List.map_cons, List.sum_cons]
  omega

/-- What a creation adds was part of the weight of the code that calls it. -/
theorem measure_create {startRoutine : Word → Code} {arg : Word} {after : Bool → Code}
    (off : t ∉ d.jobs) (answer : Answer) :
    (d.create t startRoutine arg after answer).measure <
      (Code.create t startRoutine arg after).weight + 2 + (d.jobs.map d.load).sum := by
  cases answer with
  | granted =>
      have first : (d.install t { zeroed with
          stack := some d.mallocs.length
          startRoutine := some startRoutine
          arg := arg }).load t = (startRoutine arg).weight + 4 := by
        unfold load
        rw [uthreads_install_self]
        rfl
      change (after true).weight + 2 + ((t :: d.jobs).map (d.install t { zeroed with
          stack := some d.mallocs.length
          startRoutine := some startRoutine
          arg := arg }).load).sum < _
      rw [List.map_cons, List.sum_cons, first, load_off off, Code.weight]
      omega
  | noMemory =>
      change (after false).weight + 2 + (d.jobs.map (d.install t zeroed).load).sum < _
      rw [load_off off, Code.weight]
      omega
  | noContext =>
      change (after false).weight + 2 + (d.jobs.map (d.install t { zeroed with
        stack := some d.mallocs.length }).load).sum < _
      rw [load_off off, Code.weight]
      omega

/-- A step of main inside `uthread_run_all` lowers the measure, or leaves the call with no
jobs left. -/
theorem Sound.advance_main {after : Code} {answer : Answer} (sound : d.Sound)
    (owner : d.running.owner = none) (inside : d.Inside after) (done : d.step answer = some next) :
    next.measure < d.measure ∧ next.Inside after ∨
      next.running = ⟨none, .code after⟩ ∧ next.jobs = [] := by
  have kept : d.Kept none := owner ▸ sound.kept
  unfold Inside at inside
  rw [owner] at inside
  unfold Roster.step at done
  obtain point | ⟨t, point⟩ := inside
  · rw [point, owner] at done
    have before : d.measure = 1 + (d.jobs.map d.load).sum := by
      simp only [measure, point]
    cases jobs : d.jobs with
    | nil =>
        simp only [jobs] at done
        obtain rfl := Option.some.inj done
        exact .inr ⟨by simp only [goto, owner], jobs⟩
    | cons t rest =>
        simp only [jobs] at done
        have kept' : ({ d with waiting := some (t, after) } : Roster).Kept none :=
          kept.congr rfl rfl rfl
        obtain ⟨less, waiting, owner'⟩ := measure_launch kept' jobs done
        have less : next.measure + 1 = (d.jobs.map d.load).sum := less
        refine .inl ⟨by omega, ?_⟩
        unfold Inside
        rw [owner', waiting]
        exact ⟨t, rfl⟩
  · rw [point, owner] at done
    have before : d.measure = 2 + (d.jobs.map d.load).sum := by
      simp only [measure, point]
    obtain ⟨u, here, rfl⟩ := Option.map_eq_some_iff.mp done
    obtain ⟨stack, _, jobs, running, _⟩ := d.free_same here
    have left : ((d.free t u).goto (.looping after)).measure = 1 + (d.jobs.map d.load).sum := by
      rw [← load_free here, ← jobs]
      rfl
    have owner' : ((d.free t u).goto (.looping after)).running.owner = none := by
      change (d.free t u).running.owner = none
      rw [running, owner]
    refine .inl ⟨by omega, ?_⟩
    unfold Inside
    rw [owner']
    exact .inl rfl

/-- A uthread that ends leaves less to do. -/
theorem Kept.advance_done {after : Code} {result : Word} {yields : ℕ} {answer : Answer}
    (kept : d.Kept (some self)) (running : d.running = ⟨some self, .code (.done result)⟩)
    (off : self ∉ d.jobs) (here : d.uthreads self = some u) (created : u.Created)
    (leads : u.Leads yields (.done result)) (log : d.history self = ran self u.arg yields)
    (waiting : d.waiting = some (x, after))
    (done : d.step answer = some next) : next.measure < d.measure ∧ next.Inside after := by
  have before : d.measure = 3 + (d.jobs.map d.load).sum := by
    simp only [measure, running, Code.weight]
  have same : (d.finish self u result).load = d.load := load_install here rfl rfl
  unfold Roster.step at done
  rw [running] at done
  obtain ⟨v, there, rest⟩ := Option.bind_eq_some_iff.mp done
  obtain rfl := Option.some.inj (here.symm.trans there)
  cases jobs : d.jobs with
  | nil =>
      simp only [jobs, waiting, Option.map_some] at rest
      obtain rfl := Option.some.inj rest
      refine ⟨?_, .inr ⟨x, rfl⟩⟩
      change 2 + (d.jobs.map (d.finish self u result).load).sum < _
      rw [same]
      omega
  | cons t rest' =>
      simp only [jobs] at rest
      have kept' := kept.finish result off here created leads log
      obtain ⟨less, waiting', owner'⟩ := measure_launch kept' jobs rest
      have less : next.measure + 1 = (d.jobs.map (d.finish self u result).load).sum := less
      rw [same] at less
      refine ⟨by omega, ?_⟩
      unfold Inside
      rw [owner', waiting']
      exact ⟨x, waiting⟩

/-- A step of the running uthread lowers the measure. -/
theorem Sound.advance_uthread {after : Code} {answer : Answer} (sound : d.Sound)
    (owner : d.running.owner = some self) (distinct : d.Distinct) (inside : d.Inside after)
    (done : d.step answer = some next) : next.measure < d.measure ∧ next.Inside after := by
  obtain ⟨off, ⟨u, here, created, _, underway⟩, _⟩ := sound.uthread self owner
  have kept : d.Kept (some self) := owner ▸ sound.kept
  unfold Inside at inside
  rw [owner] at inside
  obtain ⟨x, waiting⟩ := inside
  have stays : ∀ {e : Roster}, e.running.owner = some self → e.waiting = d.waiting →
      e.Inside after := by
    intro e is same
    unfold Inside
    rw [is, same]
    exact ⟨x, waiting⟩
  have whole := done
  unfold Underway at underway
  unfold Roster.step at done
  cases point : d.running.point with
  | entry =>
      rw [point, owner] at done
      obtain ⟨v, there, rest⟩ := Option.bind_eq_some_iff.mp done
      obtain rfl := Option.some.inj (here.symm.trans there)
      obtain ⟨startRoutine, routine, rest⟩ := Option.bind_eq_some_iff.mp rest
      obtain rfl := Option.some.inj rest
      have weight : d.load self = (startRoutine u.arg).weight + 4 := by
        unfold load
        rw [here]
        simp [routine]
      have before : d.measure = d.load self - 1 + (d.jobs.map d.load).sum := by
        simp only [measure, point, owner]
      refine ⟨?_, stays owner rfl⟩
      change (startRoutine u.arg).weight + 2 + (d.jobs.map d.load).sum < d.measure
      omega
  | looping next =>
      rw [point] at underway
      exact underway.elim
  | resumed t next =>
      rw [point] at underway
      exact underway.elim
  | ended =>
      rw [point] at underway
      exact underway.elim
  | code code =>
      rw [point] at underway
      obtain ⟨worker, yields, leads, log⟩ := underway
      have before : d.measure = code.weight + 2 + (d.jobs.map d.load).sum := by
        simp only [measure, point]
      cases code with
      | run => exact worker.elim
      | runAll => exact worker.elim
      | create t startRoutine arg next =>
          rw [point] at done
          obtain rfl := Option.some.inj done
          unfold Distinct at distinct
          rw [point] at distinct
          have notJob : t ∉ d.jobs := by
            intro member
            obtain ⟨v, there, isCreated, _⟩ := kept.jobs t member
            exact distinct ⟨v, there, isCreated⟩
          refine ⟨before ▸ measure_create notJob answer, ?_⟩
          cases answer <;> exact stays owner rfl
      | yield next =>
          rw [point, owner] at done
          obtain rfl := Option.some.inj done
          refine ⟨?_, stays owner rfl⟩
          rw [before, Code.weight]
          change next.weight + 2 + (d.jobs.map d.load).sum < _
          omega
      | done result =>
          have running : d.running = ⟨some self, .code (.done result)⟩ := by
            rw [← owner, ← point]
          exact kept.advance_done running off here created leads log waiting whole

/-- **Progress.** A step within `uthread_run_all` leaves less to do, until it returns. -/
theorem Sound.advance {after : Code} {answer : Answer} (sound : d.Sound) (distinct : d.Distinct)
    (inside : d.Inside after) (done : d.step answer = some next) :
    next.measure < d.measure ∧ next.Inside after ∨
      next.running = ⟨none, .code after⟩ ∧ next.jobs = [] := by
  cases owner : d.running.owner with
  | none => exact sound.advance_main owner inside done
  | some self => exact .inl <| sound.advance_uthread owner distinct inside done

end Roster

end OperationSystems.UserThread
