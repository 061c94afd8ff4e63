import OperationSystems.UserThread.Queue

/-!
# Where main gives up control

A switch away from main saves its context in `main_ctx` unless `current` still names a
uthread that has run before: `uthread_yield` takes that one for its caller and saves
main's context there. Until such a call only `main_ctx` can hold a context of main, and it
is the last one saved.
-/

namespace OperationSystems.UserThread

/-- Where main can be. -/
def Point.OfMain : Point → Prop
  | .code _ | .looping _ | .resumed _ _ => True
  | .entry | .ended => False

/-- The second place is in the same call as the first, behind its `swapcontext`. -/
def Continues (before after : Point) : Prop :=
  match before with
  | .code (.yield next) | .code (.run _ next) => after = .code next
  | .looping next => ∃ t, after = .resumed t next
  | _ => False

namespace World

variable {w next : World} {t : Ptr} {u : Uthread} {code : Code} {answer : Answer}

/-- main only calls `uthread_yield` while `current` is NULL. -/
def CurrentClear (w : World) : Prop :=
  match w.running.point with
  | .code (.yield _) => w.running.owner = none → w.current = none
  | _ => True

/-- No context saved in a uthread is one of main. -/
structure Owned (w : World) : Prop where
  uthreads : ∀ t u context, w.heap t = some u → u.context = some context → context.owner ≠ none
  main : ∀ context, w.mainCtx = some context → context.owner = none → context.point.OfMain
  running : w.running.owner = none → w.running.point.OfMain

theorem Owned.start : (start code).Owned where
  uthreads := fun _ _ _ held => by cases held
  main := fun _ held => by cases held
  running := fun _ => trivial

/-- What keeps contexts keeps them with their owners. -/
theorem Owned.keeps {v : World} (owned : w.Owned) (kept : w.Keeps v) : v.Owned where
  uthreads := by
    intro t u context here saved
    obtain ⟨u', there, same, _⟩ := kept.2.2 t u here
    exact owned.uthreads t u' context there (same.symm.trans saved)
  main := kept.2.1 ▸ owned.main
  running := kept.1 ▸ owned.running

/-- main goes on without a switch. -/
theorem Owned.goto {point : Point} (owned : w.Owned) (place : point.OfMain) :
    (w.goto point).Owned :=
  ⟨owned.uthreads, owned.main, fun _ => place⟩

/-- A context saved in a uthread can be found there. -/
theorem swapcontext_saved {p : Ptr} {load : Option Ptr} {after : Point}
    (done : w.swapcontext (some p) load after = some next) :
    next.mainCtx = w.mainCtx ∧
      ∃ u, next.heap p = some u ∧ u.context = some ⟨w.running.owner, after⟩ := by
  obtain ⟨v, saved, loaded⟩ := Option.bind_eq_some_iff.mp done
  obtain ⟨u, here, rfl⟩ := modify_cases saved
  cases load with
  | none =>
      obtain ⟨context, _, rfl⟩ := Option.map_eq_some_iff.mp loaded
      exact ⟨rfl, _, heap_install_self, rfl⟩
  | some t =>
      obtain ⟨u, _, rest⟩ := Option.bind_eq_some_iff.mp loaded
      obtain ⟨context, _, rest⟩ := Option.bind_eq_some_iff.mp rest
      cases rest
      exact ⟨rfl, _, heap_install_self, rfl⟩

/-- What is loaded is `main_ctx` or the context of a uthread. -/
theorem Owned.loadContext {load : Option Ptr} (owned : w.Owned)
    (done : w.loadContext load = some next) :
    next.Owned ∧ next.mainCtx = w.mainCtx ∧
      (next.running.owner = none → w.mainCtx = some next.running ∧ load = none) := by
  cases load with
  | none =>
      obtain ⟨context, saved, rfl⟩ := Option.map_eq_some_iff.mp done
      exact ⟨⟨owned.uthreads, owned.main, owned.main context saved⟩, rfl, fun _ => ⟨saved, rfl⟩⟩
  | some t =>
      obtain ⟨u, here, rest⟩ := Option.bind_eq_some_iff.mp done
      obtain ⟨context, saved, rest⟩ := Option.bind_eq_some_iff.mp rest
      cases rest
      have owner : context.owner ≠ none := owned.uthreads t u context here saved
      exact ⟨⟨owned.uthreads, owned.main, fun is => absurd is owner⟩, rfl,
        fun is => absurd is owner⟩

/-- A switch from a uthread, or one that saves main's context in `main_ctx`. -/
theorem Owned.swapcontext {save load : Option Ptr} {after : Point} (owned : w.Owned)
    (proper : save = none ∨ w.running.owner ≠ none)
    (place : w.running.owner = none → after.OfMain)
    (done : w.swapcontext save load after = some next) :
    next.Owned ∧
      next.mainCtx = (if save = none then some ⟨w.running.owner, after⟩ else w.mainCtx) ∧
        (next.running.owner = none → next.mainCtx = some next.running ∧ load = none) := by
  obtain ⟨v, saved, loaded⟩ := Option.bind_eq_some_iff.mp done
  have stored : v.Owned ∧
      v.mainCtx = (if save = none then some ⟨w.running.owner, after⟩ else w.mainCtx) := by
    cases save with
    | none =>
        obtain rfl := Option.some.inj saved
        refine ⟨⟨owned.uthreads, ?_, owned.running⟩, rfl⟩
        rintro context ⟨⟩ owner
        exact place owner
    | some p =>
        obtain ⟨u, here, rfl⟩ := modify_cases saved
        have owner : w.running.owner ≠ none := proper.resolve_left (by simp)
        refine ⟨⟨fun x v context there held => ?_, owned.main, owned.running⟩, by simp [install]⟩
        obtain ⟨rfl, rfl⟩ | ⟨_, there⟩ := heap_install_cases there
        · cases held
          exact owner
        · exact owned.uthreads x v context there held
  obtain ⟨owned', same, from'⟩ := stored.1.loadContext loaded
  exact ⟨owned', same.trans stored.2, fun is => ⟨same.trans (from' is).1, (from' is).2⟩⟩

/-- A uthread's steps put no context of main anywhere, and main is only resumed where
`main_ctx` says. -/
def Hands (w next : World) : Prop :=
  next.Owned ∧ (∀ context, next.mainCtx = some context →
    w.mainCtx = some context ∨ context.owner ≠ none) ∧
      (next.running.owner = none → w.mainCtx = some next.running)

/-- A uthread goes on without a switch. -/
theorem Owned.stays {v : World} (owned : w.Owned) (owner : w.running.owner ≠ none)
    (kept : w.Keeps v) (point : Point) : w.Hands (v.goto point) := by
  have owner' : v.running.owner ≠ none := by rwa [kept.1]
  have owned' := owned.keeps kept
  exact ⟨⟨owned'.uthreads, owned'.main, fun is => absurd is owner'⟩, fun context held =>
    .inl (kept.2.1 ▸ held), fun is => absurd is owner'⟩

/-- A switch away from a uthread hands main nothing but its own context. -/
theorem Owned.switches {v : World} {save load : Option Ptr} {after : Point} (owned : w.Owned)
    (owner : w.running.owner ≠ none) (kept : w.Keeps v) (apart : save ≠ none ∨ load ≠ none)
    (done : v.swapcontext save load after = some next) : w.Hands next := by
  have owner' : v.running.owner ≠ none := by rwa [kept.1]
  obtain ⟨owned', same, loads⟩ :=
    (owned.keeps kept).swapcontext (.inr owner') (fun is => absurd is owner') done
  refine ⟨owned', fun context held => ?_, fun is => ?_⟩
  · rw [same] at held
    split at held
    · cases held
      exact .inr owner'
    · exact .inl (kept.2.1 ▸ held)
  · obtain ⟨held, null⟩ := loads is
    rw [same, if_neg (apart.resolve_right (not_not.mpr null)), kept.2.1] at held
    exact held

/-- So does a yield of a uthread. -/
theorem Owned.yields {v : World} {after : Point} (owned : w.Owned)
    (owner : w.running.owner ≠ none) (kept : w.Keeps v)
    (done : v.uthreadYield after = some next) : w.Hands next := by
  obtain ⟨x, kept', rest⟩ := uthreadYield_switch done
  obtain ⟨current, switched⟩ | ⟨_, rfl⟩ | ⟨t, _, switched⟩ := rest
  · exact owned.switches owner (kept.trans kept') (.inl current) switched
  · exact owned.stays owner (kept.trans kept') after
  · exact owned.switches owner (kept.trans kept') (.inr (by simp)) switched

/-- A finished uthread ends in `uthread_yield`. -/
theorem Keeps.finish {v : World} (kept : w.Keeps v) (done : v.finish = some next) :
    ∃ x, w.Keeps x ∧ x.uthreadYield .ended = some next := by
  obtain ⟨t, _, rest⟩ := Option.bind_eq_some_iff.mp done
  obtain ⟨x, marked, yields⟩ := Option.bind_eq_some_iff.mp rest
  obtain ⟨u, here, rfl⟩ := modify_cases marked
  exact ⟨_, kept.trans (Keeps.install (v := { u with state := .finished }) here rfl rfl rfl),
    yields⟩

/-- The context of a new uthread is its own. -/
theorem Owned.create {startRoutine : Word → Code} {arg : Word} {created : Bool}
    (owned : w.Owned) (done : w.uthreadCreate t startRoutine arg answer = some (created, next)) :
    next.Owned ∧ next.mainCtx = w.mainCtx ∧ next.running = w.running := by
  have written : ∀ (v : Uthread) (x : World), (∀ context, v.context = some context →
      context.owner ≠ none) → x.heap = Function.update w.heap t (some v) →
        x.mainCtx = w.mainCtx → x.running = w.running → x.Owned := by
    intro v x contexts heap same place
    refine ⟨fun y u context here held => ?_, same ▸ owned.main, place ▸ owned.running⟩
    rw [heap] at here
    obtain ⟨rfl, rfl⟩ | ⟨_, there⟩ := heap_install_cases (w := w) here
    · exact contexts context held
    · exact owned.uthreads y u context there held
  cases answer with
  | granted =>
      cases (uthreadCreate_granted ..).symm.trans done
      refine ⟨written _ _ (fun context held => ?_) rfl rfl rfl, rfl, rfl⟩
      cases held
      exact Option.some_ne_none t
  | noMemory =>
      cases done
      exact ⟨written _ _ (fun _ held => by cases held) rfl rfl rfl, rfl, rfl⟩
  | noContext =>
      cases done
      exact ⟨written _ _ (fun _ held => by cases held) rfl rfl rfl, rfl, rfl⟩

/-- A step of a uthread. -/
theorem Owned.step_uthread (owned : w.Owned) (owner : w.running.owner ≠ none)
    (done : w.step answer = some next) : w.Hands next := by
  unfold World.step at done
  cases point : w.running.point with
  | ended =>
      rw [point] at done
      have done : w.loadContext none = some next := done
      obtain ⟨owned', same, loads⟩ := owned.loadContext done
      exact ⟨owned', fun context held => .inl (same ▸ held), fun is => (loads is).1⟩
  | entry =>
      rw [point] at done
      obtain ⟨t, _, rest⟩ := Option.bind_eq_some_iff.mp done
      obtain ⟨u, _, rest⟩ := Option.bind_eq_some_iff.mp rest
      split at rest
      case h_1 startRoutine self _ _ =>
        cases rest
        exact owned.stays owner (v := { w with events := w.events ++ [.entered self u.arg] })
          ⟨rfl, rfl, fun _ u here => ⟨u, here, rfl, rfl, rfl⟩⟩ (.code (startRoutine u.arg))
      case h_2 =>
        obtain ⟨x, kept, yields⟩ := (Keeps.refl w).finish rest
        exact owned.yields owner kept yields
  | looping code =>
      rw [point] at done
      obtain ⟨⟨found, v⟩, popped, rest⟩ := Option.bind_eq_some_iff.mp done
      cases found with
      | none =>
          cases rest
          exact owned.stays owner (.qPopReady popped) (.code code)
      | some t =>
          obtain ⟨x, started, switched⟩ := Option.bind_eq_some_iff.mp rest
          exact owned.switches owner ((Keeps.qPopReady popped).trans (.makeRunning started))
            (.inr (by simp)) switched
  | resumed t code =>
      rw [point] at done
      obtain ⟨v, collected, rfl⟩ := Option.map_eq_some_iff.mp done
      exact owned.stays owner (.collect collected) (.looping code)
  | code code =>
      rw [point] at done
      cases code with
      | done result =>
          obtain ⟨self, _, left⟩ := Option.bind_eq_some_iff.mp done
          obtain ⟨t, _, rest⟩ := Option.bind_eq_some_iff.mp left
          obtain ⟨v, written, finishes⟩ := Option.bind_eq_some_iff.mp rest
          obtain ⟨u, here, rfl⟩ := modify_cases written
          have kept : w.Keeps { w.install t { u with retval := result } with
              events := w.events ++ [.returned self result] } :=
            (Keeps.install (v := { u with retval := result }) here rfl rfl rfl).trans
              ⟨rfl, rfl, fun _ u here => ⟨u, here, rfl, rfl, rfl⟩⟩
          obtain ⟨x, kept', yields⟩ := kept.finish finishes
          exact owned.yields owner kept' yields
      | create t startRoutine arg after =>
          obtain ⟨⟨created, v⟩, made, rfl⟩ := Option.map_eq_some_iff.mp done
          obtain ⟨owned', same, place⟩ := owned.create made
          exact ⟨owned'.goto trivial, fun context held => .inl (same ▸ held), fun is =>
            absurd (place ▸ is) owner⟩
      | run t after =>
          obtain ⟨x, started, switched⟩ := Option.bind_eq_some_iff.mp done
          exact owned.switches owner (.makeRunning started) (.inr (by simp)) switched
      | yield after => exact owned.yields owner (.refl w) done
      | runAll after =>
          cases done
          exact owned.stays owner (.refl w) (.looping after)

/-- **A step of main.** If it is a switch to a uthread, main's context is in `main_ctx`,
in the same call. -/
theorem Owned.step_main (owned : w.Owned) (owner : w.running.owner = none) (clear : w.CurrentClear)
    (done : w.step answer = some next) : next.Owned ∧ (next.running.owner ≠ none →
      ∃ context, next.mainCtx = some context ∧ context.owner = none ∧
        Continues w.running.point context.point) := by
  have place := owned.running owner
  unfold CurrentClear at clear
  unfold World.step at done
  have switches : ∀ {v : World} {t} after, w.Keeps v → after.OfMain →
      Continues w.running.point after → v.swapcontext none (some t) after = some next →
        next.Owned ∧ (next.running.owner ≠ none → ∃ context, next.mainCtx = some context ∧
          context.owner = none ∧ Continues w.running.point context.point) := by
    intro v t after kept ofMain continues switched
    obtain ⟨owned', same, _⟩ :=
      (owned.keeps kept).swapcontext (.inl rfl) (fun _ => ofMain) switched
    exact ⟨owned', fun _ => ⟨_, same.trans (if_pos rfl), by rw [kept.1, owner], continues⟩⟩
  have remains : ∀ {v : World} point, w.Keeps v → point.OfMain → next = v.goto point →
      next.Owned ∧ (next.running.owner ≠ none → ∃ context, next.mainCtx = some context ∧
        context.owner = none ∧ Continues w.running.point context.point) := by
    rintro v point kept ofMain rfl
    exact ⟨(owned.keeps kept).goto ofMain, fun is => absurd (by
      rw [show (v.goto point).running.owner = v.running.owner from rfl, kept.1, owner]) is⟩
  cases point : w.running.point with
  | ended =>
      rw [point] at place
      exact place.elim
  | entry =>
      rw [point] at place
      exact place.elim
  | looping code =>
      rw [point] at done
      obtain ⟨⟨found, v⟩, popped, rest⟩ := Option.bind_eq_some_iff.mp done
      rw [point] at switches remains
      cases found with
      | none =>
          cases rest
          exact remains (.code code) (.qPopReady popped) trivial rfl
      | some t =>
          obtain ⟨x, started, switched⟩ := Option.bind_eq_some_iff.mp rest
          exact switches (.resumed t code) ((Keeps.qPopReady popped).trans (.makeRunning started))
            trivial ⟨t, rfl⟩ switched
  | resumed t code =>
      rw [point] at done remains
      obtain ⟨v, collected, rfl⟩ := Option.map_eq_some_iff.mp done
      exact remains (.looping code) (.collect collected) trivial rfl
  | code code =>
      rw [point] at done clear switches remains
      cases code with
      | done result => simp [owner] at done
      | create t startRoutine arg after =>
          obtain ⟨⟨created, v⟩, made, rfl⟩ := Option.map_eq_some_iff.mp done
          obtain ⟨owned', _, same⟩ := owned.create made
          exact ⟨owned'.goto trivial, fun is => absurd (by
            rw [show (v.goto (.code (after created))).running.owner = v.running.owner from rfl,
              same, owner]) is⟩
      | run t after =>
          obtain ⟨x, started, switched⟩ := Option.bind_eq_some_iff.mp done
          exact switches (.code after) (.makeRunning started) trivial rfl switched
      | yield after =>
          have null : w.current = none := clear owner
          obtain ⟨v, kept, rest⟩ := uthreadYield_switch done
          rw [null] at rest
          obtain ⟨current, _⟩ | ⟨_, rfl⟩ | ⟨t, _, switched⟩ := rest
          · exact absurd rfl current
          · exact remains (.code after) kept trivial rfl
          · exact switches (.code after) kept trivial rfl switched
      | runAll after =>
          cases done
          exact remains (.looping after) (.refl w) trivial rfl

/-- Behind a switch from main, its context is in no uthread but in `main_ctx`, in the same
call, and the next time main runs it goes on there. -/
def GetsBack (w next : World) : Prop :=
  (∀ t u context, next.heap t = some u → u.context = some context → context.owner ≠ none) ∧
  ∃ context, next.mainCtx = some context ∧ context.owner = none ∧
    Continues w.running.point context.point ∧
      ∀ v, Transition.ReachesBy step (fun v _ => v.running.owner ≠ none) next v →
        v.running.owner = none → v.running = context

/-- **Where main gets control back.** In runs in which main yields only while `current`
is NULL, every switch from main to a uthread leaves main's context in `main_ctx` and in no
uthread, and when main runs the next time it goes on in that call. Every other yield of
main leaves `main_ctx` as it was and main's context in the uthread that `current` names. -/
theorem main_continues_iff :
    (∀ w answer next, Transition.ReachesBy step (fun w _ => w.CurrentClear) (start code) w →
      w.CurrentClear → w.step answer = some next →
        w.running.owner = none → next.running.owner ≠ none →
          w.GetsBack next) ∧
    (∀ w answer next, Transition.Reaches step (start code) w → ¬ w.CurrentClear →
      w.step answer = some next → ∃ p u after, w.running = ⟨none, .code (.yield after)⟩ ∧
        w.current = some p ∧ next.heap p = some u ∧ u.context = some ⟨none, .code after⟩ ∧
          next.mainCtx = w.mainCtx) := by
  refine ⟨fun w answer next reached clear done owner away => ?_,
    fun w answer next _ unclear done => ?_⟩
  · have owned : w.Owned := by
      refine reached.invariant (motive := Owned) .start fun w answer next owned clear done => ?_
      by_cases owner : w.running.owner = none
      · exact (owned.step_main owner clear done).1
      · exact (owned.step_uthread owner done).1
    obtain ⟨owned', switched⟩ := owned.step_main owner clear done
    obtain ⟨context, saved, isMain, continues⟩ := switched away
    refine ⟨owned'.uthreads, context, saved, isMain, continues, fun v later back => ?_⟩
    -- while uthreads run, `main_ctx` holds this context or one of theirs
    refine (later.invariant (motive := fun v => v.Owned ∧ (∀ other, v.mainCtx = some other →
      other = context ∨ other.owner ≠ none) ∧ (v.running.owner = none → v.running = context))
      ⟨owned', fun other held => .inl (Option.some.inj (held.symm.trans saved)),
        fun is => absurd is away⟩ ?_).2.2 back
    rintro x answer y ⟨owned, held, _⟩ away stepped
    obtain ⟨owned', keeps, loads⟩ := owned.step_uthread away stepped
    refine ⟨owned', fun other there => ?_, fun is => ?_⟩
    · obtain before | other' := keeps other there
      · exact held other before
      · exact .inr other'
    · exact (held _ (loads is)).resolve_right (not_not.mpr is)
  · unfold CurrentClear at unclear
    cases point : w.running.point with
    | code code =>
        rw [point] at unclear
        cases code with
        | yield after =>
            simp only [Classical.not_imp] at unclear
            obtain ⟨owner, busy⟩ := unclear
            obtain ⟨p, current⟩ := Option.ne_none_iff_exists'.mp busy
            unfold World.step at done
            rw [point] at done
            obtain ⟨v, kept, rest⟩ := uthreadYield_switch done
            rw [current] at rest
            have saves : ∀ {load}, v.swapcontext (some p) load (.code after) = some next →
                ∃ u, next.heap p = some u ∧ u.context = some ⟨none, .code after⟩ ∧
                  next.mainCtx = w.mainCtx := by
              intro load switched
              obtain ⟨same, u, here, context⟩ := swapcontext_saved switched
              rw [kept.1, owner] at context
              exact ⟨u, here, context, same.trans kept.2.1⟩
            have place : w.running = ⟨none, .code (.yield after)⟩ := by
              rw [← owner, ← point]
            obtain ⟨_, switched⟩ | ⟨null, _⟩ | ⟨t, _, switched⟩ := rest
            · obtain ⟨u, rest⟩ := saves switched
              exact ⟨p, u, after, place, current, rest⟩
            · cases null
            · obtain ⟨u, rest⟩ := saves switched
              exact ⟨p, u, after, place, current, rest⟩
        | done | create | run | runAll => exact absurd trivial unclear
    | entry | looping | resumed | ended =>
        rw [point] at unclear
        exact absurd trivial unclear

/-- `CurrentClear`, to be computed. -/
def currentClear (w : World) : Bool :=
  match w.running.point with
  | .code (.yield _) => w.running.owner.isSome || w.current.isNone
  | _ => true

theorem currentClear_iff : w.currentClear = true ↔ w.CurrentClear := by
  unfold currentClear CurrentClear
  cases point : w.running.point with
  | code code =>
      cases code with
      | yield after => cases w.running.owner <;> cases w.current <;> simp
      | done | create | run | runAll => simp
  | entry | looping | resumed | ended => simp

/-- main runs a uthread to its end, creates another one and yields. -/
def yieldAfterRunAll : Code :=
  .create 0 (fun _ => .done 0) 0 fun _ =>
    .runAll (.create 1 (fun _ => .done 0) 0 fun _ => .yield (.done 0))

/-- The theorem at the switch of `uthread_run_all` and at the yield behind it. -/
theorem main_continues_iff_run :
    (∃ w next : World, w.step .granted = some next ∧ next.running.owner = some 0 ∧
      w.GetsBack next) ∧
    (∃ w next : World, w.step .granted = some next ∧ ∃ p u after,
      w.running = ⟨none, .code (.yield after)⟩ ∧ w.current = some p ∧ next.heap p = some u ∧
        u.context = some ⟨none, .code after⟩ ∧ next.mainCtx = w.mainCtx) := by
  constructor
  · have ran : ((Transition.run (Transition.guarded step fun w _ => w.currentClear)
        (start yieldAfterRunAll) (List.replicate 2 .granted)).any fun w => w.currentClear &&
          decide (w.running.owner = none) &&
            (w.step .granted).any fun next => decide (next.running.owner = some 0)) = true := by
      decide +kernel
    obtain ⟨w, ran, holds⟩ := (Option.any_eq_true _ _).mp ran
    simp only [Bool.and_eq_true, decide_eq_true_eq] at holds
    obtain ⟨⟨clear, owner⟩, stepped⟩ := holds
    obtain ⟨next, stepped, away⟩ := (Option.any_eq_true _ _).mp stepped
    have away : next.running.owner = some 0 := of_decide_eq_true away
    exact ⟨w, next, stepped, away, main_continues_iff.1 w .granted next
      (.of_guarded ran (fun v _ passed => currentClear_iff.mp passed) .start)
      (currentClear_iff.mp clear) stepped owner (by simp [away])⟩
  · have ran : ((Transition.run step (start yieldAfterRunAll) (List.replicate 8 .granted)).any
        fun w => !w.currentClear && (w.step .granted).isSome) = true := by decide +kernel
    obtain ⟨w, ran, holds⟩ := (Option.any_eq_true _ _).mp ran
    simp only [Bool.and_eq_true, Bool.not_eq_true', ← Bool.not_eq_true, currentClear_iff] at holds
    obtain ⟨next, stepped⟩ := Option.isSome_iff_exists.mp holds.2
    exact ⟨w, next, stepped, main_continues_iff.2 w .granted next (.of_run ran .start) holds.1
      stepped⟩

/-- main's context saved in a uthread that has ended. -/
theorem main_context_misplaced :
    ¬ ∀ w next : World, Transition.Reaches step (start yieldAfterRunAll) w →
      w.step .granted = some next → w.running.owner = none → next.running.owner ≠ none →
        w.GetsBack next := by
  intro holds
  have ran : ((Transition.run step (start yieldAfterRunAll) (List.replicate 8 .granted)).any
      fun w => decide (w.running.owner = none) && (w.step .granted).any fun next =>
        decide (next.running.owner ≠ none) && (next.heap 0).any fun u =>
          u.context.any fun context => decide (context.owner = none)) = true := by decide +kernel
  obtain ⟨w, ran, rest⟩ := (Option.any_eq_true _ _).mp ran
  simp only [Bool.and_eq_true, decide_eq_true_eq] at rest
  obtain ⟨owner, stepped⟩ := rest
  obtain ⟨next, stepped, rest⟩ := (Option.any_eq_true _ _).mp stepped
  simp only [Bool.and_eq_true, decide_eq_true_eq] at rest
  obtain ⟨away, held⟩ := rest
  obtain ⟨u, here, held⟩ := (Option.any_eq_true _ _).mp held
  obtain ⟨context, saved, isMain⟩ := (Option.any_eq_true _ _).mp held
  exact (holds w next (.of_run ran .start) stepped owner away).1 0 u context here saved
    (of_decide_eq_true isMain)

end World

end OperationSystems.UserThread
