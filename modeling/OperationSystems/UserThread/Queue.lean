import OperationSystems.UserThread.Machine

/-!
# What the queue operations do

`q_push` and `q_pop_ready` on a chain that ends, and `uthread_yield` of a uthread that
runs. The latter puts itself at the head of the queue and takes itself from there, so all
that remains of it is a null in its `next` field.
-/

namespace OperationSystems.UserThread

namespace World

open LinkedCells

variable {w next : World} {t : Ptr} {u : Uthread} {nodes : List Ptr}

/-- The chain from `readyq`. -/
def Queue (w : World) (nodes : List Ptr) : Prop := Path some w.cells none nodes

/-- Memory is only written where `uthread_create` was called. -/
def Known (w : World) : Prop := ∀ t u, w.heap t = some u → t ∈ w.objects

/-- The state of the object is READY, be it a uthread or cleared memory. -/
def ready (w : World) (t : Ptr) : Bool := (w.isReady t).getD false

/-- A uthread that is READY. -/
def Ready (w : World) (t : Ptr) : Prop := ∃ u, w.heap t = some u ∧ u.state = .ready ∧ u.Created

instance (w : World) (t : Ptr) : Decidable (w.Ready t) :=
  decidable_of_iff ((w.heap t).any fun u => decide (u.state = .ready) && u.startRoutine.isSome) (by
    simp [Ready, Uthread.Created, Option.any_eq_true])

/-- The world with other links. -/
def relink (w : World) (readyq : Option Ptr) (link : Ptr → Option Ptr) : World :=
  { w with
    readyq := readyq
    heap := fun t => (w.heap t).map fun u => { u with next := link t } }

/-! ## Writing -/

/-- Writing to an object that is there puts the new contents in its place. -/
theorem modify_eq (here : w.heap t = some u) (f : Uthread → Uthread) :
    w.modify t f = some (w.install t (f u)) := by
  simp [modify, here]

/-- A write succeeds only on an object that is there. -/
theorem modify_cases {f : Uthread → Uthread} (done : w.modify t f = some next) :
    ∃ u, w.heap t = some u ∧ next = w.install t (f u) := by
  obtain ⟨u, here, rfl⟩ := Option.map_eq_some_iff.mp done
  exact ⟨u, here, rfl⟩

@[simp] theorem heap_install_self : (w.install t u).heap t = some u := Function.update_self ..

theorem heap_install_of_ne {x : Ptr} (apart : x ≠ t) : (w.install t u).heap x = w.heap x :=
  Function.update_of_ne apart _ _

@[simp] theorem install_install (u' : Uthread) : (w.install t u).install t u' = w.install t u' := by
  simp [install]

/-- What the heap holds after one write. -/
theorem heap_install_cases {x : Ptr} {v : Uthread} (held : (w.install t u).heap x = some v) :
    x = t ∧ v = u ∨ x ≠ t ∧ w.heap x = some v := by
  by_cases same : x = t
  · subst same
    rw [heap_install_self] at held
    exact .inl ⟨rfl, (Option.some.inj held).symm⟩
  · rw [heap_install_of_ne same] at held
    exact .inr ⟨same, held⟩

/-- Storing an object changes its own link and no other cell. -/
theorem cells_install (w : World) (t : Ptr) (u : Uthread) :
    (w.install t u).cells = Function.update w.cells (some t) (some u.next) := by
  funext cell
  cases cell with
  | none => rfl
  | some x =>
      by_cases same : x = t
      · subst same
        rw [Function.update_self]
        simp [cells]
      · rw [Function.update_of_ne (by simpa using same)]
        simp [cells, heap_install_of_ne same]

/-- A write that keeps the link leaves the chain alone. -/
theorem Queue.install {v : Uthread} (queue : w.Queue nodes) (here : w.heap t = some u)
    (same : v.next = u.next) : (w.install t v).Queue nodes := by
  have held : w.cells (some t) = some v.next := by simp [cells, here, same]
  unfold Queue
  rw [cells_install, ← held, Function.update_eq_self]
  exact queue

/-- A write outside the chain leaves it alone. -/
theorem Queue.install_of_notMem (queue : w.Queue nodes) (outside : t ∉ nodes) (v : Uthread) :
    (w.install t v).Queue nodes := by
  unfold Queue
  rw [cells_install]
  refine queue.transfer (Function.update_of_ne (by simp) _ _) fun x member => ?_
  exact Function.update_of_ne (by rintro ⟨⟩; exact outside member) _ _

/-- A relinked heap differs from the old one in the links alone. -/
theorem heap_relink (w : World) (readyq : Option Ptr) (link : Ptr → Option Ptr) (t : Ptr) :
    (w.relink readyq link).heap t = (w.heap t).map fun u => { u with next := link t } := rfl

@[simp] theorem relink_relink (w : World) (q q' : Option Ptr) (link link' : Ptr → Option Ptr) :
    (w.relink q link).relink q' link' = w.relink q' link' := by
  simp [relink, Function.comp_def]

/-- What the heap holds when only links have changed. -/
theorem heap_relink_cases {q : Option Ptr} {link : Ptr → Option Ptr} {x : Ptr} {v : Uthread}
    (held : (w.relink q link).heap x = some v) :
    ∃ u, w.heap x = some u ∧ v = { u with next := link x } := by
  obtain ⟨u, here, rfl⟩ := Option.map_eq_some_iff.mp held
  exact ⟨u, here, rfl⟩

/-- A store to a cell is a change of links. -/
theorem store_eq {cell held : Option Ptr} (value : Option Ptr) (here : w.cells cell = some held) :
    ∃ q link, w.store cell value = some (w.relink q link) ∧
      (w.relink q link).cells = Function.update w.cells cell (some value) := by
  have own : ∀ x, ((w.heap x).map fun u =>
      { u with next := (w.heap x).bind Uthread.next }) = w.heap x := by
    intro x
    cases w.heap x <;> rfl
  cases cell with
  | none =>
      refine ⟨value, fun x => (w.heap x).bind Uthread.next, ?_, ?_⟩
      · simp [store, relink, own]
      · funext cell
        cases cell with
        | none => rfl
        | some x => simp [cells, relink, own]
  | some t =>
      obtain ⟨u, there, rfl⟩ := Option.map_eq_some_iff.mp here
      have shape : w.install t { u with next := value } = w.relink w.readyq
          (Function.update (fun x => (w.heap x).bind Uthread.next) t value) := by
        unfold World.install relink
        congr 1
        funext x
        by_cases same : x = t
        · subst same
          simp [there]
        · simp [same, own]
      refine ⟨_, _, (modify_eq there _).trans (congrArg some shape), ?_⟩
      rw [← shape, cells_install]

/-! ## The two operations -/

/-- `q_push` puts the object in front of the queue, with the old head behind it. -/
theorem qPush_eq (here : w.heap t = some u) :
    w.qPush t = some { w.install t { u with next := w.readyq } with readyq := some t } := by
  simp [qPush, store, modify_eq here]

/-- What `q_push` leaves in the cells. -/
theorem cells_pushed (u : Uthread) (linked : u.next = w.readyq) :
    ({ w.install t u with readyq := some t } : World).cells =
      Function.update (Function.update w.cells (some t) (some w.readyq)) none (some (some t)) := by
  funext cell
  cases cell with
  | none => rfl
  | some x =>
      rw [Function.update_of_ne (by simp), ← linked, ← cells_install]
      rfl

/-- A queue with an object in front that was not on it, and that links to the old head. -/
theorem Queue.push (queue : w.Queue nodes) (outside : t ∉ nodes) (linked : u.next = w.readyq) :
    ({ w.install t u with readyq := some t } : World).Queue (t :: nodes) := by
  unfold Queue
  rw [cells_pushed u linked]
  refine Path.push queue (Function.update_self ..) ?_ fun x member => ?_
  · rw [Function.update_of_ne (by simp), Function.update_self]
    rfl
  · rw [Function.update_of_ne (by simp), Function.update_of_ne]
    rintro ⟨⟩
    exact outside member

/-- Pushing what is linked already leaves a chain that does not end. -/
theorem Queue.push_twice (queue : w.Queue nodes) (inside : t ∈ nodes) (linked : u.next = w.readyq) :
    ¬ ∃ found, ({ w.install t u with readyq := some t } : World).Queue found := by
  unfold Queue
  rw [cells_pushed u linked]
  refine Path.push_twice queue inside (Function.update_self ..) ?_ fun x apart => ?_
  · rw [Function.update_of_ne (by simp), Function.update_self]
    rfl
  · rw [Function.update_of_ne (by simp), Function.update_of_ne (by simpa using apart)]

/-- Every object on the queue is in memory. -/
theorem Queue.heap (queue : w.Queue nodes) (member : t ∈ nodes) : ∃ u, w.heap t = some u := by
  obtain ⟨held, there⟩ := Path.allocated queue member
  obtain ⟨u, here, _⟩ := Option.map_eq_some_iff.mp there
  exact ⟨u, here⟩

/-- The queue has no more nodes than there are objects, so a walk over it ends in time. -/
theorem Queue.length_lt (queue : w.Queue nodes) (known : w.Known) :
    nodes.length < w.objects.length + 1 := by
  refine Nat.lt_succ_of_le (List.Subperm.length_le ?_)
  refine (Path.nodup queue).subperm fun t member => ?_
  obtain ⟨u, here⟩ := queue.heap member
  exact known t u here

/-- Along the queue the test for READY never reads missing memory. -/
theorem Queue.isReady (queue : w.Queue nodes) (member : t ∈ nodes) :
    w.isReady t = some (w.ready t) := by
  obtain ⟨u, here⟩ := queue.heap member
  simp [World.isReady, ready, here]

theorem ready_iff : w.ready t = true ↔ ∃ u, w.heap t = some u ∧ u.state = .ready := by
  unfold ready isReady
  cases w.heap t <;> simp

/-- **`q_pop_ready`.** It unlinks the first object of the chain whose state is READY. -/
theorem qPopReady_cases (queue : w.Queue nodes) (known : w.Known) :
    (nodes.find? w.ready = none ∧ w.qPopReady = some (none, w)) ∨
    ∃ t q link, nodes.find? w.ready = some t ∧ w.qPopReady = some (some t, w.relink q link) ∧
      (w.relink q link).Queue (nodes.erase t) := by
  have enough := queue.length_lt known
  have tested : ∀ t ∈ nodes, w.isReady t = some (w.ready t) := fun t member =>
    queue.isReady member
  cases first : nodes.find? w.ready with
  | none =>
      left
      obtain ⟨pp, walked, null⟩ := Path.seek_null queue tested first enough
      exact ⟨rfl, by simp [qPopReady, walked, null]⟩
  | some t =>
      right
      have member := List.mem_of_find?_eq_some first
      obtain ⟨u, here⟩ := queue.heap member
      obtain ⟨pp, located, names, _, shorter⟩ := Path.locate_spec queue (Option.some_injective _)
        (fun _ _ => by simp) member enough
      rw [Path.locate_eq_seek queue tested first] at located
      have walked : seek some w.cells w.isReady (w.objects.length + 1) none = some pp := by
        simpa using located
      obtain ⟨q, link, unlinked, cells⟩ := store_eq u.next names
      have linked : (w.relink q link).cells (some t) = some (link t) := by
        simp [World.cells, heap_relink, here]
      obtain ⟨q', link', cleared, cells'⟩ := store_eq none linked
      rw [relink_relink] at cleared cells'
      refine ⟨t, q', link', rfl, ?_, ?_⟩
      · simp [qPopReady, walked, names, here, unlinked, cleared]
      · have own : w.cells (some t) = some u.next := by simp [World.cells, here]
        have outside : t ∉ nodes.erase t := (Path.nodup queue).not_mem_erase
        unfold Queue
        rw [cells', cells, ← own]
        refine Path.transfer shorter (Function.update_of_ne (by simp) _ _) fun x later => ?_
        refine Function.update_of_ne ?_ _ _
        rintro ⟨⟩
        exact outside later

/-! ## What the queue operations leave alone -/

/-- The running context, `main_ctx` and what the uthreads will run are the same. -/
def Keeps (w v : World) : Prop :=
  v.running = w.running ∧ v.mainCtx = w.mainCtx ∧ ∀ t u, v.heap t = some u →
    ∃ u', w.heap t = some u' ∧ u.context = u'.context ∧ u.startRoutine = u'.startRoutine ∧
      u.arg = u'.arg

theorem Keeps.refl (w : World) : w.Keeps w := ⟨rfl, rfl, fun _ u here => ⟨u, here, rfl, rfl, rfl⟩⟩

theorem Keeps.trans {v x : World} (first : w.Keeps v) (second : v.Keeps x) : w.Keeps x := by
  refine ⟨second.1.trans first.1, second.2.1.trans first.2.1, fun t u here => ?_⟩
  obtain ⟨u', there, context, routine, arg⟩ := second.2.2 t u here
  obtain ⟨u'', before, context', routine', arg'⟩ := first.2.2 t u' there
  exact ⟨u'', before, context.trans context', routine.trans routine', arg.trans arg'⟩

/-- Storing an object with the same context, routine and argument. -/
theorem Keeps.install {v : Uthread} (here : w.heap t = some u) (context : v.context = u.context)
    (routine : v.startRoutine = u.startRoutine) (arg : v.arg = u.arg) :
    w.Keeps (w.install t v) := by
  refine ⟨rfl, rfl, fun x u' there => ?_⟩
  obtain ⟨rfl, rfl⟩ | ⟨_, there⟩ := heap_install_cases there
  · exact ⟨u, here, context, routine, arg⟩
  · exact ⟨u', there, rfl, rfl, rfl⟩

/-- Links are no part of what is kept. -/
theorem Keeps.store {cell value : Option Ptr} (done : w.store cell value = some next) :
    w.Keeps next := by
  cases cell with
  | none =>
      obtain rfl := Option.some.inj done
      exact ⟨rfl, rfl, fun _ u here => ⟨u, here, rfl, rfl, rfl⟩⟩
  | some t =>
      obtain ⟨u, here, rfl⟩ := modify_cases done
      exact .install here rfl rfl rfl

/-- `q_push` changes links only. -/
theorem Keeps.qPush (done : w.qPush t = some next) : w.Keeps next := by
  obtain ⟨v, stored, rfl⟩ := Option.map_eq_some_iff.mp done
  exact (Keeps.store stored).trans ⟨rfl, rfl, fun _ u here => ⟨u, here, rfl, rfl, rfl⟩⟩

/-- So does `q_pop_ready`. -/
theorem Keeps.qPopReady {found : Option Ptr} (done : w.qPopReady = some (found, next)) :
    w.Keeps next := by
  obtain ⟨pp, _, rest⟩ := Option.bind_eq_some_iff.mp done
  obtain ⟨held, _, rest⟩ := Option.bind_eq_some_iff.mp rest
  cases held with
  | none =>
      cases rest
      exact .refl w
  | some t =>
      obtain ⟨u, _, rest⟩ := Option.bind_eq_some_iff.mp rest
      obtain ⟨v, unlinked, rest⟩ := Option.bind_eq_some_iff.mp rest
      obtain ⟨x, cleared, rest⟩ := Option.bind_eq_some_iff.mp rest
      cases rest
      exact (Keeps.store unlinked).trans (.store cleared)

/-- Starting a uthread changes its state only. -/
theorem Keeps.makeRunning (done : w.makeRunning t = some next) : w.Keeps next := by
  obtain ⟨u, here, rfl⟩ := modify_cases done
  exact Keeps.install (w := { w with current := some t }) here rfl rfl rfl

/-- The first part of `uthread_yield` changes a state and links only. -/
theorem Keeps.requeue (done : w.requeue = some next) : w.Keeps next := by
  unfold World.requeue at done
  cases current : w.current with
  | none =>
      rw [current] at done
      cases done
      exact .refl w
  | some p =>
      rw [current] at done
      obtain ⟨u, here, rest⟩ := Option.bind_eq_some_iff.mp done
      split at rest
      · exact (Keeps.install (v := { u with state := .ready }) here rfl rfl rfl).trans (.qPush rest)
      · cases rest
        exact .refl w

/-- What `uthread_run_all` does behind a switch changes a stack or links only. -/
theorem Keeps.collect (done : w.collect t = some next) : w.Keeps next := by
  unfold World.collect at done
  obtain ⟨u, here, rest⟩ := Option.bind_eq_some_iff.mp done
  split at rest
  · cases rest
    exact Keeps.install (v := { u with stack := none }) here rfl rfl rfl
  · exact .qPush rest
  · cases rest
    exact .refl w

/-- `uthread_yield` ends with at most one `swapcontext`, which saves the running context in
the current uthread if there is one, and else in `main_ctx`. -/
theorem uthreadYield_switch {after : Point} (done : w.uthreadYield after = some next) :
    ∃ v, w.Keeps v ∧
      ((w.current ≠ none ∧ v.swapcontext w.current none after = some next) ∨
      (w.current = none ∧ next = v.goto after) ∨
      ∃ t, v.current = some t ∧ v.swapcontext w.current (some t) after = some next) := by
  obtain ⟨v, requeued, rest⟩ := Option.bind_eq_some_iff.mp done
  obtain ⟨⟨found, x⟩, popped, rest⟩ := Option.bind_eq_some_iff.mp rest
  have kept : w.Keeps x := (Keeps.requeue requeued).trans (.qPopReady popped)
  cases found with
  | none =>
      refine ⟨x, kept, ?_⟩
      cases current : w.current with
      | none => exact .inr (.inl ⟨rfl, by simpa [current, eq_comm] using rest⟩)
      | some p => exact .inl ⟨by simp, by simpa [current] using rest⟩
  | some t =>
      obtain ⟨y, started, switched⟩ := Option.bind_eq_some_iff.mp rest
      have running : y.current = some t := by
        obtain ⟨u, _, rfl⟩ := modify_cases started
        rfl
      exact ⟨y, kept.trans (.makeRunning started), .inr (.inr ⟨t, running, switched⟩)⟩

/-! ## Uthreads that come and go -/

/-- The uthread that a granted `uthread_create` leaves at the head of the queue. -/
def fresh (w : World) (t : Ptr) (startRoutine : Word → Code) (arg : Word) : Uthread where
  context := some ⟨some t, .entry⟩
  stack := some w.mallocs.length
  startRoutine := some startRoutine
  arg := arg
  retval := 0
  state := .ready
  next := w.readyq

/-- A granted `uthread_create` stores a READY object with its routine and argument, has a
new stack allocated for it, and links it in front. -/
theorem uthreadCreate_granted (w : World) (t : Ptr) (startRoutine : Word → Code) (arg : Word) :
    w.uthreadCreate t startRoutine arg .granted = some (true, { w with
      heap := Function.update w.heap t (some (w.fresh t startRoutine arg))
      readyq := some t
      objects := t :: w.objects
      created := w.created ++ [⟨t, startRoutine, arg⟩]
      mallocs := w.mallocs ++ [t] }) := by
  simp [uthreadCreate, qPush, store, modify, install, fresh, zeroed]

/-- What `uthread_run_all` does behind its `swapcontext`. -/
theorem collect_cases (here : w.heap t = some u) (done : w.collect t = some next) :
    (∃ stack, u.state = .finished ∧ u.stack = some stack ∧
      next = { w.install t { u with stack := none } with frees := w.frees ++ [stack] }) ∨
    (u.state = .ready ∧ w.qPush t = some next) ∨
    (next = w ∧ u.state ≠ .ready ∧ (u.state = .finished → u.stack = none)) := by
  unfold collect at done
  rw [here] at done
  simp only [Option.bind_eq_bind, Option.bind_some] at done
  split at done
  case h_1 state stack => exact .inl ⟨_, state, stack, (Option.some.inj done).symm⟩
  case h_2 state => exact .inr (.inl ⟨state, done⟩)
  case h_3 notReady kept =>
    refine .inr (.inr ⟨(Option.some.inj done).symm, notReady, fun state => ?_⟩)
    cases stack : u.stack with
    | none => rfl
    | some stack' => exact (kept stack' state stack).elim

/-- **`uthread_yield` of a running uthread.** It is resumed at once. -/
theorem uthreadYield_running (running : w.current = some t) (here : w.heap t = some u)
    (state : u.state = .running) (after : Point) : w.uthreadYield after = some
      { w.install t { u with next := none, context := some ⟨w.running.owner, after⟩ } with
        running := ⟨w.running.owner, after⟩
        events := w.events ++ [.resumed t] } := by
  have pushed : w.requeue = some
      { w.install t { u with state := .ready, next := w.readyq } with readyq := some t } := by
    have there : (w.install t { u with state := .ready }).heap t =
        some { u with state := .ready } :=
      heap_install_self
    simp only [requeue, running, here, Option.bind_eq_bind, Option.bind_some, if_pos state,
      qPush_eq there, install_install]
    rfl
  have popped : ({ w.install t { u with state := .ready, next := w.readyq } with
      readyq := some t } : World).qPopReady =
        some (some t, w.install t { u with state := .ready, next := none }) := by
    simp [qPopReady, seek, cells, World.isReady, install, store, modify]
  simp only [uthreadYield, running, pushed, popped, Option.bind_eq_bind, Option.bind_some]
  simp [makeRunning, modify, swapcontext, saveContext, loadContext, install, state, running]

/-- The step of user code that yields is `uthread_yield`. -/
theorem step_yield {code : Code} (answer : Answer)
    (place : w.running.point = .code (.yield code)) :
    w.step answer = w.uthreadYield (.code code) := by
  unfold World.step
  rw [place]

/-- A current uthread that does not run is not put back. -/
theorem requeue_idle (idle : ∀ p, w.current = some p →
    ∃ u, w.heap p = some u ∧ u.state ≠ .running) : w.requeue = some w := by
  unfold requeue
  cases current : w.current with
  | none => rfl
  | some p =>
      obtain ⟨u, here, other⟩ := idle p current
      simp [here, other]

/-- `uthread_yield` when the current uthread, if there is one, does not run. -/
theorem uthreadYield_cases {after : Point} (idle : ∀ p, w.current = some p →
    ∃ u, w.heap p = some u ∧ u.state ≠ .running) (done : w.uthreadYield after = some next) :
    ∃ found v, w.qPopReady = some (found, v) ∧
      ((found = none ∧ w.current ≠ none ∧ v.swapcontext w.current none after = some next) ∨
      (found = none ∧ w.current = none ∧ next = v.goto after) ∨
      ∃ t, found = some t ∧
        (v.makeRunning t).bind (fun v => v.swapcontext w.current (some t) after) = some next) := by
  unfold uthreadYield at done
  rw [requeue_idle idle] at done
  simp only [Option.bind_eq_bind, Option.bind_some] at done
  obtain ⟨⟨found, v⟩, popped, rest⟩ := Option.bind_eq_some_iff.mp done
  refine ⟨found, v, popped, ?_⟩
  cases found with
  | none =>
      cases current : w.current with
      | none =>
          right
          left
          simpa [current, eq_comm] using rest
      | some p =>
          left
          simpa [current] using rest
  | some t => exact .inr (.inr ⟨t, rfl, rest⟩)

end World

end OperationSystems.UserThread
