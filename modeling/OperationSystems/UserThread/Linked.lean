import OperationSystems.UserThread.Queue

/-!
# When the ready queue stays well formed

The chain from `readyq` ends and holds every READY uthread as long as nobody breaks it at
an object that is linked: `uthread_create` on such an object, and `uthread_yield` of a
uthread that `uthread_run` has started without unlinking it. `q_pop_ready` cannot break
it, and control comes back to `uthread_run_all` only with nothing READY on the chain.
-/

namespace OperationSystems.UserThread

namespace World

open LinkedCells

variable {w next : World} {t : Ptr} {u : Uthread} {nodes : List Ptr} {main : Code}

/-- The chain from `readyq` ends, has no object twice and holds every READY uthread. -/
def WellFormed (w : World) : Prop :=
  ∃ nodes, w.Queue nodes ∧ nodes.Nodup ∧ ∀ t, w.Ready t → t ∈ nodes

/-- User code is about to make a call or has just returned from one. -/
def UserPoint (w : World) : Prop := ∃ code, w.running.point = .code code

/-- `uthread_run` is only called for READY uthreads. -/
def RunsReady (w : World) : Prop :=
  match w.running.point with
  | .code (.run t _) => w.Ready t
  | _ => True

/-- The object is on the chain. -/
def Linked (w : World) (t : Ptr) : Prop := ∃ nodes, w.Queue nodes ∧ t ∈ nodes

/-- The object is on the chain in front of a READY uthread. -/
def Behind (w : World) (t : Ptr) : Prop :=
  ∃ before after, w.Queue (before ++ t :: after) ∧ ∃ x ∈ after, w.Ready x

/-- `uthread_create` does not link an object that is linked, nor clear one in front of a
READY uthread, and `uthread_yield` is not called by a running uthread that is still linked
there. -/
def Orderly (w : World) (answer : Answer) : Prop :=
  match w.running.point with
  | .code (.create t _ _ _) => if answer = .granted then ¬ w.Linked t else ¬ w.Behind t
  | .code (.yield _) => ∀ t u, w.current = some t → w.heap t = some u → u.state = .running →
      ¬ w.Behind t
  | _ => True

/-- What is known of a context saved in a uthread. -/
def Resumable (u : Uthread) : Prop :=
  ∀ context, u.context = some context →
    (∀ x code, context.point ≠ .resumed x code) ∧
      (context.point = .ended → u.state = .finished)

/-- The chain ends, and no context was saved where it must not be resumed. -/
structure Sane (w : World) (nodes : List Ptr) : Prop where
  queue : w.Queue nodes
  known : w.Known
  saved : ∀ t u, w.heap t = some u → Resumable u
  main : ∀ context, w.mainCtx = some context → context.point ≠ .ended

/-- Nothing on the chain is READY. -/
def Quiet (w : World) (nodes : List Ptr) : Prop := ∀ t ∈ nodes, w.ready t = false

/-- The chain holds what is READY, and control has come back to `uthread_run_all` only
with nothing READY on it. -/
structure Sound (w : World) (nodes : List Ptr) : Prop extends w.Sane nodes where
  covers : ∀ t, w.Ready t → t ∈ nodes
  point : w.running.point ≠ .ended
  quiet : ∀ t code, w.running.point = .resumed t code → w.Quiet nodes

/-! ## What the writes keep -/

theorem Known.install (known : w.Known) (here : w.heap t = some u) (v : Uthread) :
    (w.install t v).Known := by
  intro x held there
  obtain ⟨rfl, _⟩ | ⟨_, there⟩ := heap_install_cases there
  · exact known x u here
  · exact known x held there

theorem Known.relink (known : w.Known) (q : Option Ptr) (link : Ptr → Option Ptr) :
    (w.relink q link).Known := by
  intro x held there
  obtain ⟨u, here, _⟩ := heap_relink_cases there
  exact known x u here

/-- An object can be stored with the same link and a context that may be resumed. -/
theorem Sane.install {v : Uthread} (sane : w.Sane nodes) (here : w.heap t = some u)
    (link : v.next = u.next) (resumable : Resumable v) : (w.install t v).Sane nodes where
  queue := sane.queue.install here link
  known := sane.known.install here v
  saved := by
    intro x held there
    obtain ⟨_, rfl⟩ | ⟨_, there⟩ := heap_install_cases there
    · exact resumable
    · exact sane.saved x held there
  main := sane.main

/-- Links can change if there is a queue behind it. -/
theorem Sane.relink {q : Option Ptr} {link : Ptr → Option Ptr} {others : List Ptr}
    (sane : w.Sane nodes) (queue : (w.relink q link).Queue others) :
    (w.relink q link).Sane others where
  queue := queue
  known := sane.known.relink q link
  saved := by
    intro x held there
    obtain ⟨u, here, rfl⟩ := heap_relink_cases there
    exact sane.saved x u here
  main := sane.main

/-- Only memory, the queue and `main_ctx` count. -/
theorem Sane.same {v : World} (sane : w.Sane nodes) (heap : v.heap = w.heap)
    (readyq : v.readyq = w.readyq) (objects : v.objects = w.objects)
    (mainCtx : v.mainCtx = w.mainCtx) : v.Sane nodes := by
  obtain ⟨queue, known, saved, main⟩ := sane
  cases v
  cases heap
  cases readyq
  cases objects
  cases mainCtx
  exact ⟨queue, known, saved, main⟩

/-- Who is READY behind a store: the stored object, or one that was. -/
theorem ready_install {v : Uthread} {x : Ptr} (ready : (w.install t v).Ready x) :
    x = t ∧ v.state = .ready ∧ v.Created ∨ x ≠ t ∧ w.Ready x := by
  obtain ⟨u, there, state, created⟩ := ready
  obtain ⟨rfl, rfl⟩ | ⟨apart, there⟩ := heap_install_cases there
  · exact .inl ⟨rfl, state, created⟩
  · exact .inr ⟨apart, u, there, state, created⟩

/-- Links have no part in who is READY. -/
theorem ready_relink {q : Option Ptr} {link : Ptr → Option Ptr} {x : Ptr} :
    (w.relink q link).Ready x ↔ w.Ready x := by
  constructor
  · rintro ⟨v, there, state, created⟩
    obtain ⟨u, here, rfl⟩ := heap_relink_cases there
    exact ⟨u, here, state, created⟩
  · rintro ⟨u, here, state, created⟩
    exact ⟨{ u with next := link x }, by simp [heap_relink, here], state, created⟩

/-! ## Switches -/

/-- Saving the running context changes no state and no link. -/
theorem Sane.saveContext {place : Option Ptr} {after : Point} (sane : w.Sane nodes)
    (main : place = none → after ≠ .ended)
    (returns : ∀ x code, after ≠ .resumed x code ∨ place = none)
    (ended : ∀ p u, place = some p → w.heap p = some u → after = .ended → u.state = .finished)
    (done : w.saveContext place after = some next) :
    next.Sane nodes ∧ (∀ x v, next.heap x = some v → ∃ u, w.heap x = some u ∧
      v.state = u.state ∧ v.startRoutine = u.startRoutine) := by
  cases place with
  | none =>
      obtain rfl := Option.some.inj done
      refine ⟨⟨sane.queue, sane.known, sane.saved, ?_⟩, fun x v there => ⟨v, there, rfl, rfl⟩⟩
      rintro context ⟨⟩
      exact main rfl
  | some p =>
      obtain ⟨u, here, rfl⟩ := modify_cases done
      refine ⟨sane.install here rfl ?_, fun x v there => ?_⟩
      · rintro context ⟨⟩
        exact ⟨fun x code => (returns x code).resolve_right (by simp), ended p u rfl here⟩
      · obtain ⟨rfl, rfl⟩ | ⟨_, there⟩ := heap_install_cases there
        · exact ⟨u, here, rfl, rfl⟩
        · exact ⟨v, there, rfl, rfl⟩

theorem Sane.loadMain (sane : w.Sane nodes) (covers : ∀ t, w.Ready t → t ∈ nodes)
    (quiet : w.Quiet nodes) (done : w.loadContext none = some next) : next.Sound nodes := by
  obtain ⟨context, saved, rfl⟩ := Option.map_eq_some_iff.mp done
  exact ⟨sane.same rfl rfl rfl rfl, covers, sane.main context saved,
    fun _ _ _ => quiet⟩

theorem Sane.loadUthread (sane : w.Sane nodes) (covers : ∀ t, w.Ready t → t ∈ nodes)
    (here : w.heap t = some u) (going : u.state ≠ .finished)
    (done : w.loadContext (some t) = some next) : next.Sound nodes := by
  obtain ⟨v, there, rest⟩ := Option.bind_eq_some_iff.mp done
  obtain rfl := Option.some.inj (here.symm.trans there)
  obtain ⟨context, saved, loaded⟩ := Option.bind_eq_some_iff.mp rest
  obtain rfl := Option.some.inj loaded
  obtain ⟨returns, ended⟩ := sane.saved t u here context saved
  exact ⟨sane.same rfl rfl rfl rfl, covers,
    fun place => going (ended place), fun x code place => absurd place (returns x code)⟩

/-- **A start.** A READY object is made the running one, whether it was unlinked or not. -/
theorem Sane.launch {place : Option Ptr} {after : Point} (sane : w.Sane nodes)
    (covers : ∀ x, w.Ready x → x = t ∨ x ∈ nodes) (ready : w.ready t = true)
    (main : place = none → after ≠ .ended)
    (returns : ∀ x code, after ≠ .resumed x code ∨ place = none)
    (ended : ∀ p u, place = some p → w.heap p = some u → after = .ended → u.state = .finished)
    (done : (w.makeRunning t).bind (fun w => w.swapcontext place (some t) after) = some next) :
    next.Sound nodes := by
  obtain ⟨middle, started, switched⟩ := Option.bind_eq_some_iff.mp done
  obtain ⟨u, here, rfl⟩ := modify_cases started
  obtain ⟨v, there, state⟩ := ready_iff.mp ready
  obtain rfl := Option.some.inj (here.symm.trans there)
  have fresh : ({ w with current := some t } : World).Sane nodes := sane.same rfl rfl rfl rfl
  have running : (({ w with current := some t } : World).install t
      { u with state := .running }).Sane nodes := by
    refine fresh.install here rfl fun context saved => ?_
    obtain ⟨returns, ended⟩ := sane.saved t u here context saved
    exact ⟨returns, fun place => by cases state.symm.trans (ended place)⟩
  obtain ⟨last, saved, loaded⟩ := Option.bind_eq_some_iff.mp switched
  obtain ⟨sane', states⟩ := running.saveContext main returns (fun p v at' there is => by
    obtain ⟨rfl, rfl⟩ | ⟨_, there⟩ := heap_install_cases there
    · cases state.symm.trans (ended p u at' here is)
    · exact ended p v at' there is) saved
  have covered : ∀ x, last.Ready x → x ∈ nodes := by
    rintro x ⟨v, there, isReady, created⟩
    obtain ⟨v', there', same, routine⟩ := states x v there
    obtain ⟨rfl, rfl⟩ | ⟨apart, there'⟩ := heap_install_cases there'
    · cases isReady.symm.trans same
    · have created' : v'.Created := by
        unfold Uthread.Created at created ⊢
        rwa [← routine]
      exact (covers x ⟨v', there', same.symm.trans isReady, created'⟩).resolve_left apart
  obtain ⟨held, there⟩ : ∃ v, last.heap t = some v := by
    obtain ⟨v, there, _⟩ := Option.bind_eq_some_iff.mp loaded
    exact ⟨v, there⟩
  obtain ⟨v', there', same, _⟩ := states t held there
  rw [heap_install_self] at there'
  obtain rfl := Option.some.inj there'
  exact sane'.loadUthread covered there (by simp [same]) loaded

/-- `q_pop_ready` either finds nothing READY, or gives an object that is. -/
theorem Sane.pop {found : Option Ptr} (sane : w.Sane nodes)
    (covers : ∀ x, w.Ready x → x ∈ nodes) (done : w.qPopReady = some (found, next)) :
    (found = none ∧ next = w ∧ w.Quiet nodes) ∨
    ∃ t q link, found = some t ∧ next = w.relink q link ∧ next.Sane (nodes.erase t) ∧
      next.ready t = true ∧ ∀ x, next.Ready x → x = t ∨ x ∈ nodes.erase t := by
  obtain ⟨first, popped⟩ | ⟨t, q, link, first, popped, queue⟩ :=
    qPopReady_cases sane.queue sane.known
  · cases popped.symm.trans done
    refine .inl ⟨rfl, rfl, fun t member => ?_⟩
    simpa using List.find?_eq_none.mp first t member
  · cases popped.symm.trans done
    refine .inr ⟨t, q, link, rfl, rfl, sane.relink queue, ?_, fun x ready => ?_⟩
    · obtain ⟨u, here, state⟩ := ready_iff.mp (List.find?_some first)
      exact ready_iff.mpr ⟨{ u with next := link t }, by simp [heap_relink, here], state⟩
    · by_cases same : x = t
      · exact .inl same
      · exact .inr ((List.mem_erase_of_ne same).mpr (covers x (ready_relink.mp ready)))

/-- `uthread_yield` of a uthread that does not run, or of main. -/
theorem Sane.yield {after : Point} (sane : w.Sane nodes) (covers : ∀ x, w.Ready x → x ∈ nodes)
    (idle : ∀ p, w.current = some p → ∃ u, w.heap p = some u ∧ u.state ≠ .running)
    (returns : ∀ x code, after ≠ .resumed x code)
    (ended : after = .ended → ∃ p u, w.current = some p ∧ w.heap p = some u ∧ u.state = .finished)
    (done : w.uthreadYield after = some next) : ∃ nodes, next.Sound nodes := by
  obtain ⟨found, middle, popped, rest⟩ := uthreadYield_cases idle done
  have last : ∀ p v, w.current = some p → w.heap p = some v → after = .ended →
      v.state = .finished := by
    intro p v current there is
    obtain ⟨p', u, current', here, state⟩ := ended is
    obtain rfl := Option.some.inj (current.symm.trans current')
    obtain rfl := Option.some.inj (there.symm.trans here)
    exact state
  have stays : w.current = none → after ≠ .ended := by
    intro null is
    obtain ⟨p, _, current, _⟩ := ended is
    cases null.symm.trans current
  have popped := sane.pop covers popped
  obtain ⟨rfl, _, switched⟩ | ⟨rfl, null, rfl⟩ | ⟨t, rfl, switched⟩ := rest
  · obtain ⟨_, rfl, quiet⟩ | ⟨_, _, _, found, _⟩ := popped
    case inr => cases found
    obtain ⟨saved, stored, loaded⟩ := Option.bind_eq_some_iff.mp switched
    obtain ⟨sane', states⟩ := sane.saveContext stays (fun x code => .inl (returns x code)) last
      stored
    refine ⟨nodes, sane'.loadMain (fun x ready => ?_) (fun x member => ?_) loaded⟩
    · obtain ⟨v, there, isReady, created⟩ := ready
      obtain ⟨u, here, same, routine⟩ := states x v there
      refine covers x ⟨u, here, same.symm.trans isReady, ?_⟩
      unfold Uthread.Created at created ⊢
      rwa [← routine]
    · have before := quiet x member
      rw [Bool.eq_false_iff, ne_eq, ready_iff] at before ⊢
      rintro ⟨v, there, isReady⟩
      obtain ⟨u, here, same, _⟩ := states x v there
      exact before ⟨u, here, same.symm.trans isReady⟩
  · obtain ⟨_, rfl, _⟩ | ⟨_, _, _, found, _⟩ := popped
    case inr => cases found
    exact ⟨nodes, sane.same rfl rfl rfl rfl, covers, stays null,
      fun x code is => absurd is (returns x code)⟩
  · obtain ⟨found, _⟩ | ⟨t', q, link, found, rfl, sane', ready, covers'⟩ := popped
    · cases found
    obtain rfl := Option.some.inj found
    refine ⟨nodes.erase t, sane'.launch covers' ready stays (fun x code => .inl (returns x code))
      (fun p v current there is => ?_) switched⟩
    obtain ⟨u, here, rfl⟩ := heap_relink_cases there
    exact last p u current here is

/-- The end of `uthread_entry`. -/
theorem Sane.finish (sane : w.Sane nodes) (covers : ∀ x, w.Ready x → x ∈ nodes)
    (done : w.finish = some next) : ∃ nodes, next.Sound nodes := by
  obtain ⟨t, current, rest⟩ := Option.bind_eq_some_iff.mp done
  obtain ⟨middle, marked, yields⟩ := Option.bind_eq_some_iff.mp rest
  obtain ⟨u, here, rfl⟩ := modify_cases marked
  have held : (w.install t { u with state := .finished }).heap t =
      some { u with state := .finished } := heap_install_self
  have ended : (w.install t { u with state := .finished }).Sane nodes :=
    sane.install here rfl fun context saved => ⟨(sane.saved t u here context saved).1, fun _ => rfl⟩
  refine ended.yield (fun x ready => ?_) (fun p now => ?_) (fun _ _ is => by cases is)
    (fun _ => ⟨t, _, current, held, rfl⟩) yields
  · obtain ⟨_, state, _⟩ | ⟨_, ready⟩ := ready_install ready
    · cases state
    · exact covers x ready
  · obtain rfl := Option.some.inj (current.symm.trans now)
    exact ⟨_, held, by simp⟩

/-- A null in the `next` field of an object that is not in front of a READY uthread
leaves every READY one on the chain. -/
theorem Queue.cut {v : Uthread} (queue : w.Queue nodes) (covers : ∀ x, w.Ready x → x ∈ nodes)
    (alone : ¬ w.Behind t) (null : v.next = none) (idle : ¬ (v.state = .ready ∧ v.Created)) :
    ∃ nodes, (w.install t v).Queue nodes ∧ ∀ x, (w.install t v).Ready x → x ∈ nodes := by
  have others : ∀ x, (w.install t v).Ready x → x ≠ t ∧ w.Ready x := by
    intro x ready
    obtain ⟨_, state, created⟩ | other := ready_install ready
    · exact absurd ⟨state, created⟩ idle
    · exact other
  by_cases member : t ∈ nodes
  · obtain ⟨before, after, rfl⟩ := List.append_of_mem member
    refine ⟨before ++ [t], ?_, fun x ready => ?_⟩
    · unfold Queue
      rw [cells_install, null]
      exact Path.cut queue (Option.some_injective _) fun _ _ => by simp
    · obtain ⟨apart, ready⟩ := others x ready
      obtain earlier | last := List.mem_append.mp (covers x ready)
      · exact List.mem_append_left _ earlier
      · have behind := (List.mem_cons.mp last).resolve_left apart
        exact absurd ⟨before, after, queue, x, behind, ready⟩ alone
  · exact ⟨nodes, queue.install_of_notMem member _, fun x ready => covers x (others x ready).2⟩

/-- A uthread that runs yields without breaking the chain, unless it is linked in front of
a READY one. -/
theorem Sane.yield_running {after : Point} (sane : w.Sane nodes)
    (covers : ∀ x, w.Ready x → x ∈ nodes) (current : w.current = some t) (here : w.heap t = some u)
    (state : u.state = .running) (alone : ¬ w.Behind t)
    (returns : ∀ x code, after ≠ .resumed x code) (goes : after ≠ .ended)
    (done : w.uthreadYield after = some next) : ∃ nodes, next.Sound nodes := by
  obtain rfl := Option.some.inj ((uthreadYield_running current here state after).symm.trans done)
  obtain ⟨nodes, queue, covers⟩ := sane.queue.cut (v := { u with
      next := none, context := some ⟨w.running.owner, after⟩ }) covers alone rfl
    (fun ready => by cases state.symm.trans ready.1)
  refine ⟨nodes, ⟨queue, sane.known.install here _, fun x v there => ?_, sane.main⟩, covers, goes,
    fun x code is => absurd is (returns x code)⟩
  obtain ⟨_, rfl⟩ | ⟨_, there⟩ := heap_install_cases there
  · rintro context ⟨⟩
    exact ⟨returns, fun is => absurd is goes⟩
  · exact sane.saved x v there

/-! ## The calls -/

/-- What a refused `uthread_create` leaves is no uthread. -/
theorem Sane.refused {v : Uthread} {mallocs : List Ptr} {frees : List ℕ} (sane : w.Sane nodes)
    (covers : ∀ x, w.Ready x → x ∈ nodes) (alone : ¬ w.Behind t) (null : v.next = none)
    (routine : v.startRoutine = none) (context : v.context = none) (code : Code) :
    ∃ nodes, World.Sound ({ w with
      heap := Function.update w.heap t (some v)
      objects := t :: w.objects
      mallocs := mallocs
      frees := frees
      running := ⟨w.running.owner, .code code⟩ } : World) nodes := by
  obtain ⟨nodes, queue, covers⟩ := sane.queue.cut covers alone null fun ready => by
    have created := ready.2
    unfold Uthread.Created at created
    rw [routine] at created
    cases created
  refine ⟨nodes, ⟨queue, fun x u there => ?_, fun x u there => ?_, sane.main⟩, covers, ?_, ?_⟩
  · obtain ⟨rfl, _⟩ | ⟨_, there⟩ := heap_install_cases there
    · exact List.mem_cons_self
    · exact List.mem_cons_of_mem _ (sane.known x u there)
  · obtain ⟨_, rfl⟩ | ⟨_, there⟩ := heap_install_cases there
    · intro saved held
      cases context.symm.trans held
    · exact sane.saved x u there
  · rintro ⟨⟩
  · rintro x code ⟨⟩

/-- A granted `uthread_create` links the uthread. -/
theorem Sane.granted {v : Uthread} {created : List Creation} {mallocs : List Ptr}
    (sane : w.Sane nodes) (covers : ∀ x, w.Ready x → x ∈ nodes) (outside : t ∉ nodes)
    (linked : v.next = w.readyq) (resumable : Resumable v) (code : Code) :
    ∃ nodes, World.Sound ({ w with
      heap := Function.update w.heap t (some v)
      readyq := some t
      objects := t :: w.objects
      created := created
      mallocs := mallocs
      running := ⟨w.running.owner, .code code⟩ } : World) nodes := by
  refine ⟨t :: nodes, ⟨sane.queue.push outside linked, fun x u there => ?_, fun x u there => ?_,
    sane.main⟩, fun x ready => ?_, ?_, ?_⟩
  · obtain ⟨rfl, _⟩ | ⟨_, there⟩ := heap_install_cases there
    · exact List.mem_cons_self
    · exact List.mem_cons_of_mem _ (sane.known x u there)
  · obtain ⟨_, rfl⟩ | ⟨_, there⟩ := heap_install_cases there
    · exact resumable
    · exact sane.saved x u there
  · obtain ⟨rfl, _⟩ | ⟨_, ready⟩ := ready_install ready
    · exact List.mem_cons_self
    · exact List.mem_cons_of_mem _ (covers x ready)
  · rintro ⟨⟩
  · rintro x code ⟨⟩

/-- An orderly `uthread_create` leaves a queue with every READY uthread on it. -/
theorem Sane.create {startRoutine : Word → Code} {arg : Word} {answer : Answer} {created : Bool}
    {middle : World} (sane : w.Sane nodes) (covers : ∀ x, w.Ready x → x ∈ nodes)
    (orderly : if answer = .granted then ¬ w.Linked t else ¬ w.Behind t)
    (done : w.uthreadCreate t startRoutine arg answer = some (created, middle)) (code : Code) :
    ∃ nodes, (middle.goto (.code code)).Sound nodes := by
  cases answer with
  | granted =>
      have outside : t ∉ nodes := by
        intro member
        rw [if_pos rfl] at orderly
        exact orderly ⟨nodes, sane.queue, member⟩
      cases (uthreadCreate_granted ..).symm.trans done
      refine sane.granted covers outside rfl (fun context saved => ?_) code
      cases saved
      exact ⟨fun x code is => (by cases is), fun is => by cases is⟩
  | noMemory =>
      have alone : ¬ w.Behind t := by simpa using orderly
      cases done
      exact sane.refused covers alone rfl rfl rfl code
  | noContext =>
      have alone : ¬ w.Behind t := by simpa using orderly
      cases done
      exact sane.refused covers alone rfl rfl rfl code

/-- Nothing READY is on the chain when `uthread_run_all` goes on behind its
`swapcontext`, so what it puts back is not linked. -/
theorem Sane.collect {middle : World} (sane : w.Sane nodes) (covers : ∀ x, w.Ready x → x ∈ nodes)
    (quiet : w.Quiet nodes) (done : w.collect t = some middle) (code : Code) :
    ∃ nodes, (middle.goto (.looping code)).Sound nodes := by
  obtain ⟨u, here, _⟩ := Option.bind_eq_some_iff.mp done
  have keeps : ∀ {v : World} (others : List Ptr), v.Sane others → (∀ x, v.Ready x → x ∈ others) →
      ∃ nodes, (v.goto (.looping code)).Sound nodes := fun {_} others sane covers =>
    ⟨others, sane.same rfl rfl rfl rfl, covers, (by rintro ⟨⟩), (by rintro x code ⟨⟩)⟩
  obtain ⟨stack, state, _, rfl⟩ | ⟨state, pushed⟩ | ⟨rfl, _⟩ := collect_cases here done
  · have freed := sane.install (v := { u with stack := none }) here rfl (sane.saved t u here)
    refine keeps nodes (freed.same rfl rfl rfl rfl) fun x ready => ?_
    obtain ⟨_, is, _⟩ | ⟨_, ready⟩ := ready_install ready
    · cases state.symm.trans is
    · exact covers x ready
  · have outside : t ∉ nodes := by
      intro member
      have off := quiet t member
      rw [Bool.eq_false_iff, ne_eq, ready_iff] at off
      exact off ⟨u, here, state⟩
    rw [qPush_eq here] at pushed
    cases pushed
    refine keeps (t :: nodes) ⟨sane.queue.push outside rfl, sane.known.install here _,
      fun x v there => ?_, sane.main⟩ fun x ready => ?_
    · obtain ⟨_, rfl⟩ | ⟨_, there⟩ := heap_install_cases there
      · exact sane.saved t u here
      · exact sane.saved x v there
    · obtain ⟨rfl, _⟩ | ⟨_, ready⟩ := ready_install ready
      · exact List.mem_cons_self
      · exact List.mem_cons_of_mem _ (covers x ready)
  · exact keeps nodes sane covers

/-- **The step.** -/
theorem Sound.step {answer : Answer} (sound : w.Sound nodes) (runs : w.RunsReady)
    (orderly : w.Orderly answer) (done : w.step answer = some next) :
    ∃ nodes, next.Sound nodes := by
  have sane := sound.toSane
  have covers := sound.covers
  unfold RunsReady at runs
  unfold Orderly at orderly
  unfold World.step at done
  cases point : w.running.point with
  | ended => exact absurd point sound.point
  | entry =>
      rw [point] at done
      obtain ⟨t, current, rest⟩ := Option.bind_eq_some_iff.mp done
      obtain ⟨u, here, rest⟩ := Option.bind_eq_some_iff.mp rest
      split at rest
      · cases rest
        exact ⟨nodes, sane.same rfl rfl rfl rfl, covers, (by rintro ⟨⟩),
          (by rintro x code ⟨⟩)⟩
      · exact sane.finish covers rest
  | looping code =>
      rw [point] at done
      obtain ⟨⟨found, middle⟩, popped, rest⟩ := Option.bind_eq_some_iff.mp done
      obtain ⟨rfl, rfl, _⟩ | ⟨t, q, link, rfl, rfl, sane', ready, covers'⟩ :=
        sane.pop covers popped
      · cases rest
        exact ⟨nodes, sane.same rfl rfl rfl rfl, covers, (by rintro ⟨⟩),
          (by rintro x code ⟨⟩)⟩
      · exact ⟨_, sane'.launch covers' ready (fun _ is => by cases is) (fun _ _ => .inr rfl)
          (fun _ _ is => by cases is) rest⟩
  | resumed t code =>
      rw [point] at done
      obtain ⟨middle, collected, rfl⟩ := Option.map_eq_some_iff.mp done
      exact sane.collect covers (sound.quiet t code point) collected code
  | code code =>
      cases code with
      | done result =>
          rw [point] at done
          obtain ⟨self, owner, left⟩ := Option.bind_eq_some_iff.mp done
          obtain ⟨t, current, rest⟩ := Option.bind_eq_some_iff.mp left
          obtain ⟨middle, written, finishes⟩ := Option.bind_eq_some_iff.mp rest
          obtain ⟨u, here, rfl⟩ := modify_cases written
          have returned := sane.install (v := { u with retval := result }) here rfl
            (sane.saved t u here)
          have logged : ∀ events, World.Sane { w.install t { u with retval := result } with
              events := events } nodes := fun _ => returned.same rfl rfl rfl rfl
          refine (logged _).finish (fun x ready => ?_) finishes
          obtain ⟨rfl, state, created⟩ | ⟨_, ready⟩ := ready_install ready
          · exact covers x ⟨u, here, state, created⟩
          · exact covers x ready
      | create t startRoutine arg after =>
          rw [point] at done orderly
          obtain ⟨⟨created, middle⟩, made, rfl⟩ := Option.map_eq_some_iff.mp done
          exact sane.create covers orderly made (after created)
      | run t after =>
          rw [point] at done runs
          obtain ⟨u, here, state, created⟩ := runs
          exact ⟨nodes, sane.launch (fun x ready => .inr (covers x ready))
            (ready_iff.mpr ⟨u, here, state⟩) (fun _ is => by cases is) (fun _ _ => .inr rfl)
            (fun _ _ is => by cases is) done⟩
      | yield after =>
          rw [point] at done orderly
          by_cases runs : ∃ t u, w.current = some t ∧ w.heap t = some u ∧ u.state = .running
          · obtain ⟨t, u, current, here, state⟩ := runs
            exact sane.yield_running covers current here state (orderly t u current here state)
              (fun _ _ is => by cases is) (fun is => by cases is) done
          · have current : ∀ p, w.current = some p → ∃ u, w.heap p = some u := by
              intro p current
              cases here : w.heap p with
              | some u => exact ⟨u, rfl⟩
              | none => simp [uthreadYield, requeue, current, here] at done
            refine sane.yield covers (fun p now => ?_) (fun _ _ is => by cases is)
              (fun is => by cases is) done
            obtain ⟨u, here⟩ := current p now
            exact ⟨u, here, fun state => runs ⟨p, u, now, here, state⟩⟩
      | runAll after =>
          rw [point] at done
          cases done
          exact ⟨nodes, sane.same rfl rfl rfl rfl, covers, (by rintro ⟨⟩),
            (by rintro x code ⟨⟩)⟩

/-- Nothing is linked and nothing READY. -/
theorem Sound.start : (start main).Sound [] where
  queue := rfl
  known := fun _ _ held => by cases held
  saved := fun _ _ held => by cases held
  main := fun _ held => by cases held
  covers := fun _ ⟨_, held, _⟩ => by cases held
  point := fun is => by cases is
  quiet := fun _ _ is => by cases is

/-- A null in the `next` field of an object in front of a READY uthread takes that one off
the chain. -/
theorem Behind.lost {v : Uthread} (behind : w.Behind t) (null : v.next = none) :
    ¬ (w.install t v).WellFormed := by
  obtain ⟨before, after, queue, x, member, ready⟩ := behind
  rintro ⟨nodes, queue', _, covers⟩
  have cut : (w.install t v).Queue (before ++ [t]) := by
    unfold Queue
    rw [cells_install, null]
    exact Path.cut queue (Option.some_injective _) fun _ _ => by simp
  obtain rfl := Path.unique queue' cut
  have distinct := List.nodup_append.mp (Path.nodup queue)
  have apart : x ≠ t := by
    rintro rfl
    exact (List.nodup_cons.mp distinct.2.1).1 member
  obtain ⟨u, here, state, created⟩ := ready
  have still : x ∈ before ++ [t] :=
    covers x ⟨u, (heap_install_of_ne apart).trans here, state, created⟩
  obtain earlier | last := List.mem_append.mp still
  · exact distinct.2.2 x earlier x (List.mem_cons_of_mem _ member) rfl
  · exact apart (List.mem_singleton.mp last)

/-- **When the ready queue stays well formed.** In runs in which no `uthread_create` is
made on a linked object (or one that is refused on an object linked in front of a READY
uthread) and no running uthread that is linked in front of a READY one yields, the queue
is well formed whenever user code runs; and any such call leaves it otherwise. -/
theorem wellFormed_iff_orderly :
    (∀ w, Transition.ReachesBy step (fun w answer => w.RunsReady ∧ w.Orderly answer)
      (start main) w → w.UserPoint → w.WellFormed) ∧
    (∀ w answer next, Transition.ReachesBy step (fun w _ => w.RunsReady) (start main) w →
      ¬ w.Orderly answer → w.step answer = some next → next.UserPoint ∧ ¬ next.WellFormed) := by
  refine ⟨fun w reached _ => ?_, fun w answer next _ breaks done => ?_⟩
  · obtain ⟨nodes, sound⟩ := reached.invariant (motive := fun w : World => ∃ nodes, w.Sound nodes)
      ⟨[], .start⟩ fun w answer next ⟨nodes, sound⟩ ⟨runs, orderly⟩ done =>
        sound.step runs orderly done
    exact ⟨nodes, sound.queue, Path.nodup sound.queue, sound.covers⟩
  · unfold Orderly at breaks
    unfold World.step at done
    cases point : w.running.point with
    | code code =>
        rw [point] at breaks done
        cases code with
        | create t startRoutine arg after =>
            obtain ⟨⟨created, middle⟩, made, rfl⟩ := Option.map_eq_some_iff.mp done
            refine ⟨⟨_, rfl⟩, ?_⟩
            cases answer with
            | granted =>
                simp only [if_true, not_not] at breaks
                obtain ⟨nodes, queue, member⟩ := breaks
                cases (uthreadCreate_granted ..).symm.trans made
                rintro ⟨found, chain, _⟩
                exact queue.push_twice member rfl ⟨found, chain⟩
            | noMemory =>
                have behind : w.Behind t := by simpa using breaks
                cases made
                exact behind.lost rfl
            | noContext =>
                have behind : w.Behind t := by simpa using breaks
                cases made
                exact behind.lost rfl
        | yield after =>
            simp only [not_forall, not_not] at breaks
            obtain ⟨t, u, current, here, state, behind⟩ := breaks
            have stepped := uthreadYield_running current here state (.code after)
            obtain rfl := Option.some.inj (stepped.symm.trans done)
            exact ⟨⟨_, rfl⟩, behind.lost rfl⟩
        | done => exact absurd trivial breaks
        | run => exact absurd trivial breaks
        | runAll => exact absurd trivial breaks
    | entry | looping | resumed | ended =>
        rw [point] at breaks
        exact absurd trivial breaks

/-- Of the calls that the chain depends on, only `uthread_create` and `uthread_yield` are
made, and only with nothing linked. -/
def unchained (w : World) : Bool :=
  match w.running.point with
  | .code (.create _ _ _ _) | .code (.yield _) => w.readyq.isNone
  | .code (.run _ _) => false
  | _ => true

/-- A test that suffices for an orderly step. -/
theorem orderly_of_unchained (answer : Answer) (passed : w.unchained = true) :
    w.RunsReady ∧ w.Orderly answer := by
  have nothing : w.readyq = none → ∀ nodes, w.Queue nodes → nodes = [] := fun null nodes queue =>
    Path.unique queue (congrArg some null)
  have unlinked : w.readyq = none → ∀ t, ¬ w.Linked t := by
    rintro null t ⟨nodes, queue, member⟩
    rw [nothing null nodes queue] at member
    cases member
  have alone : w.readyq = none → ∀ t, ¬ w.Behind t := by
    rintro null t ⟨before, after, queue, _⟩
    simpa using nothing null _ queue
  unfold unchained at passed
  unfold RunsReady Orderly
  cases point : w.running.point with
  | code code =>
      rw [point] at passed
      cases code with
      | create t startRoutine arg after =>
          have null : w.readyq = none := by simpa using passed
          refine ⟨trivial, ?_⟩
          by_cases granted : answer = .granted
          · simpa [granted] using unlinked null t
          · simpa [granted] using alone null t
      | yield after =>
          have null : w.readyq = none := by simpa using passed
          exact ⟨trivial, fun t _ _ _ _ => alone null t⟩
      | run => cases passed
      | done => exact ⟨trivial, trivial⟩
      | runAll => exact ⟨trivial, trivial⟩
  | entry | looping | resumed | ended => exact ⟨trivial, trivial⟩

/-- One uthread that yields, and `uthread_run_all`. -/
def oneYield : Code :=
  .create 0 (fun _ => .yield (.done 5)) 0 fun _ => .runAll (.done 0)

/-- Two uthreads of which the one linked in front is started by `uthread_run` and
yields. -/
def runAndYield : Code :=
  .create 0 (fun _ => .done 0) 0 fun _ =>
    .create 1 (fun _ => .yield (.done 0)) 0 fun _ => .run 1 (.done 0)

/-- `RunsReady`, to be computed. -/
def runsReady (w : World) : Bool :=
  match w.running.point with
  | .code (.run t _) => decide (w.Ready t)
  | _ => true

theorem runsReady_of (passed : w.runsReady = true) : w.RunsReady := by
  unfold runsReady at passed
  unfold RunsReady
  cases point : w.running.point with
  | code code =>
      rw [point] at passed
      cases code with
      | run t after => exact of_decide_eq_true passed
      | done | create | yield | runAll => trivial
  | entry | looping | resumed | ended => trivial

/-- `runAndYield` up to the call of `uthread_yield`. -/
theorem runAndYield_reached : ∃ w, Transition.ReachesBy step (fun w _ => w.RunsReady)
    (start runAndYield) w ∧ (∃ code, w.running.point = .code (.yield code)) ∧
      w.current = some 1 ∧ (∃ u, w.heap 1 = some u ∧ u.state = .running) ∧ w.Queue [1, 0] ∧
        w.Ready 0 := by
  have ran : (Transition.run (Transition.guarded step fun w _ => w.runsReady) (start runAndYield)
      (List.replicate 4 .granted)).any (fun w => decide (w.current = some 1) &&
        (w.heap 1).any (fun u => u.state = .running) && decide (w.cells none = some (some 1)) &&
          decide (w.cells (some 1) = some (some 0)) && decide (w.cells (some 0) = some none) &&
            decide (w.Ready 0) && match w.running.point with
              | .code (.yield _) => true
              | _ => false) = true := by decide +kernel
  obtain ⟨w, ran, holds⟩ := (Option.any_eq_true _ _).mp ran
  simp only [Bool.and_eq_true, decide_eq_true_eq] at holds
  obtain ⟨⟨⟨⟨⟨⟨current, running⟩, head⟩, first⟩, second⟩, ready⟩, place⟩ := holds
  refine ⟨w, .of_guarded ran (fun v _ passed => runsReady_of passed) .start, ?_, current, ?_,
    ⟨head, first, second⟩, ready⟩
  · split at place
    · exact ⟨_, ‹_›⟩
    · cases place
  · obtain ⟨u, here, state⟩ := (Option.any_eq_true _ _).mp running
    exact ⟨u, here, of_decide_eq_true state⟩

/-- The theorem at a run of `oneYield`, and where the linked uthread of `runAndYield`
yields. -/
theorem wellFormed_iff_orderly_run :
    (∃ w, Transition.ReachesBy step (fun w answer => w.RunsReady ∧ w.Orderly answer)
      (start oneYield) w ∧ w.events = [.resumed 0, .entered 0 0, .resumed 0, .returned 0 5] ∧
        w.WellFormed) ∧
    (∃ w, Transition.ReachesBy step (fun w _ => w.RunsReady) (start runAndYield) w ∧
      w.UserPoint ∧ ¬ w.WellFormed) := by
  constructor
  · have ran : (Transition.run (Transition.guarded step fun w _ => w.unchained) (start oneYield)
        (List.replicate 8 .granted)).any (fun w => decide (w.events =
          [.resumed 0, .entered 0 0, .resumed 0, .returned 0 5]) && match w.running.point with
            | .code _ => true
            | _ => false) = true := by decide +kernel
    obtain ⟨w, ran, holds⟩ := (Option.any_eq_true _ _).mp ran
    simp only [Bool.and_eq_true, decide_eq_true_eq] at holds
    obtain ⟨events, place⟩ := holds
    have reached : Transition.ReachesBy step (fun w answer => w.RunsReady ∧ w.Orderly answer)
        (start oneYield) w :=
      .of_guarded ran (fun v answer passed => orderly_of_unchained answer passed) .start
    refine ⟨w, reached, events, wellFormed_iff_orderly.1 w reached ?_⟩
    split at place
    · exact ⟨_, ‹_›⟩
    · cases place
  · obtain ⟨w, reached, ⟨code, point⟩, current, ⟨u, here, state⟩, queue, ready⟩ :=
      runAndYield_reached
    obtain ⟨next, stepped⟩ : ∃ next, w.step .granted = some next :=
      ⟨_, (step_yield _ point).trans (uthreadYield_running current here state _)⟩
    have runs : w.RunsReady := by
      unfold RunsReady
      rw [point]
      trivial
    refine ⟨next, .step .granted reached runs stepped, wellFormed_iff_orderly.2 w .granted next
      reached (fun orderly => ?_) stepped⟩
    unfold Orderly at orderly
    rw [point] at orderly
    exact orderly 1 u current here state ⟨[], [0], queue, 0, List.mem_cons_self, ready⟩

/-- A READY uthread that is lost. -/
theorem ready_uthread_lost :
    ¬ ∀ w, Transition.ReachesBy step (fun w _ => w.RunsReady) (start runAndYield) w →
      w.UserPoint → w.WellFormed := by
  intro holds
  have ran : (Transition.run (Transition.guarded step fun w _ => w.runsReady) (start runAndYield)
      (List.replicate 5 .granted)).any (fun w => decide (w.cells none = some (some 1)) &&
        decide (w.cells (some 1) = some none) && decide (w.Ready 0) &&
          match w.running.point with
            | .code _ => true
            | _ => false) = true := by decide +kernel
  obtain ⟨w, ran, holds'⟩ := (Option.any_eq_true _ _).mp ran
  simp only [Bool.and_eq_true, decide_eq_true_eq] at holds'
  obtain ⟨⟨⟨head, first⟩, ready⟩, place⟩ := holds'
  have user : w.UserPoint := by
    split at place
    · exact ⟨_, ‹_›⟩
    · cases place
  obtain ⟨nodes, queue, _, covers⟩ :=
    holds w (.of_guarded ran (fun v _ passed => runsReady_of passed) .start) user
  have chain : w.Queue [1] := ⟨head, first⟩
  obtain rfl := Path.unique queue chain
  exact absurd (covers 0 ready) (by simp)

end World

end OperationSystems.UserThread
