import OperationSystems.Proxy.Process
import OperationSystems.ThreadPool.Drain

/-!
# `proxy_run` can return

Behind `threadPoolCreate` the process is never stuck: from every state it can come to
its return without any wake-up that nobody has sent, whatever its threads are doing. A
worker in `handle_client` returns when its sockets hang up, so the queue is emptied and
the joins of `threadPoolStop` return. And when it has returned, nothing is left in
memory and no lock is held.
-/

namespace OperationSystems.Proxy

open Cache ThreadPool SharedRegistry

/-- What a handler still has to close. -/
def OriginFd.cost : OriginFd → ℕ
  | .unset => 3
  | .opened _ => 2
  | .connected _ => 1
  | .failed => 0
  | .closed => 0

/-- What a handler still has to do outside the cache. -/
def HandlerPc.cost : HandlerPc → ℕ
  | .outside => 0
  | .called _ => 23
  | .inside h => h.ofd.cost + (if h.closed then 0 else 1) + 1
  | .returned => 0

/-- The steps of the main thread behind `threadPoolStop`. -/
def MainPc.left : MainPc → ℕ
  | .destroy => 1
  | .returned => 0
  | _ => 2

namespace Run

variable {n : ℕ} {s s' : Run n}

/-! ## Where the main thread is and where the pool -/

/-- `threadPoolStop` can be called, or has been. -/
def Stoppable (owner : OwnerPc) : Prop :=
  owner = .serving ∨ owner = .lockStop ∨ owner = .setStop ∨ Past owner

/-- The pool that is stopped stays one to be stopped. -/
theorem stepOwner_stoppable {pool pool' : Pool Unit ClientCtx n} {succeeds : Bool}
    (stoppable : Stoppable pool.owner) (stepped : pool.stepOwner succeeds = some pool') :
    Stoppable pool'.owner := by
  unfold Pool.stepOwner at stepped
  cases place : pool.owner with
  | serving =>
      rw [place] at stepped
      exact Option.some.inj stepped ▸ .inr (.inl rfl)
  | lockStop =>
      rw [place] at stepped
      dsimp only at stepped
      split_ifs at stepped
      exact Option.some.inj stepped ▸ .inr (.inr (.inl rfl))
  | setStop =>
      rw [place] at stepped
      exact Option.some.inj stepped ▸ .inr (.inr (.inr trivial))
  | join j =>
      rw [place] at stepped
      dsimp only at stepped
      split_ifs at stepped <;> exact Option.some.inj stepped ▸ .inr (.inr (.inr trivial))
  | drain cur =>
      rw [place] at stepped
      dsimp only at stepped
      split at stepped
      · obtain ⟨task, _, rfl⟩ := Option.map_eq_some_iff.mp stepped
        exact .inr (.inr (.inr trivial))
      · exact Option.some.inj stepped ▸ .inr (.inr (.inr trivial))
  | stopped =>
      rw [place] at stepped
      cases stepped
  | _ =>
      rw [place] at stoppable
      rcases stoppable with there | there | there | there <;> cases there

/-- The main thread accepts clients only between the two calls for the pool. -/
def Phased (s : Run n) : Prop :=
  match s.main with
  | .create => True
  | .stop => Stoppable s.pool.owner
  | .destroy => True
  | .returned => True
  | _ => s.pool.owner = .serving

/-- The phases of the main thread. -/
theorem stepMain_phased (phased : s.Phased) (kept : s.Kept) {answers : MainAnswers n}
    (stepped : s.stepMain answers = some s') : s'.Phased := by
  unfold stepMain at stepped
  unfold Phased at phased
  cases place : s.main with
  | create =>
      rw [place] at stepped
      dsimp only at stepped
      split at stepped
      · rename_i serving
        split_ifs at stepped
        · exact Option.some.inj stepped ▸ serving
        · exact Option.some.inj stepped ▸ .inl serving
      · exact Option.some.inj stepped ▸ trivial
      · obtain ⟨pool, _, rfl⟩ := Option.map_eq_some_iff.mp stepped
        exact trivial
  | accept =>
      rw [place] at stepped phased
      dsimp only at stepped
      split at stepped <;> obtain rfl := Option.some.inj stepped
      · exact phased
      · unfold Phased
        rw [place]
        exact phased
      · exact phased
  | accepted cfd =>
      rw [place] at stepped phased
      dsimp only at stepped
      split_ifs at stepped <;> exact Option.some.inj stepped ▸ phased
  | submit ctx =>
      rw [place] at stepped phased
      obtain ⟨pool, moved, rfl⟩ := Option.map_eq_some_iff.mp stepped
      have same : pool.owner = .serving := (Pool.stepCaller_usable kept.pool moved).2.trans phased
      unfold Phased
      dsimp only
      split <;> first | exact same | trivial | exact .inl same
  | unallocated cfd =>
      rw [place] at stepped phased
      exact Option.some.inj stepped ▸ phased
  | refused ctx =>
      rw [place] at stepped phased
      exact Option.some.inj stepped ▸ phased
  | freeContext ctx =>
      rw [place] at stepped phased
      exact Option.some.inj stepped ▸ phased
  | closeListener =>
      rw [place] at stepped phased
      exact Option.some.inj stepped ▸ .inl phased
  | stop =>
      rw [place] at stepped phased
      dsimp only at stepped
      split at stepped
      · exact Option.some.inj stepped ▸ trivial
      · obtain ⟨pool, moved, rfl⟩ := Option.map_eq_some_iff.mp stepped
        unfold Phased
        dsimp only
        exact stepOwner_stoppable phased moved
  | destroy =>
      rw [place] at stepped
      exact Option.some.inj stepped ▸ trivial
  | returned =>
      rw [place] at stepped
      cases stepped

theorem Phased.congr (phased : s.Phased) (main : s'.main = s.main)
    (owner : s'.pool.owner = s.pool.owner) : s'.Phased := by
  unfold Phased at phased ⊢
  rw [main, owner]
  exact phased

/-- **The run lemma.** The main thread and its pool are always in the same phase. -/
theorem reached_phased (reached : Transition.Reaches step (start n) s) : s.Phased := by
  refine (reached.invariant (motive := fun s : Run n => s.Phased ∧ s.Kept)
    ⟨show (start n).Phased from trivial, Kept.start⟩ ?_).1
  rintro v label next ⟨phased, kept⟩ _ stepped
  refine ⟨?_, step_kept kept stepped⟩
  cases label with
  | main answers => exact stepMain_phased phased kept stepped
  | worker i =>
      obtain ⟨main, _⟩ := stepWorker_proxy stepped
      obtain ⟨pc, turned⟩ := Pool.stepWorker_turned kept.pool (stepWorker_pool stepped)
      exact phased.congr main turned.owner
  | handler i answers =>
      obtain ⟨_, main, pool, _⟩ := stepHandler_proxy stepped
      exact phased.congr main (congrArg Pool.owner pool)

/-! ## To the end of the joins -/

/-- The label is no step of a thread that sleeps on a condition variable. -/
def Wakeful (s : Run n) : RunLabel n → Prop
  | .main _ => True
  | .worker i => s.pool.worker i ≠ .asleep
  | .handler i _ => ¬ Asleep (s.proxy.pc i)

/-- The answers of the system to a main thread that is to return. -/
def leaving (n : ℕ) : MainAnswers n where
  create := true
  listen := false
  accept := .failed
  malloc := false
  taskMalloc := false
  woken := fun _ => true

/-- The answers to a handler whose sockets have hung up. -/
def hungUp : HandlerAnswers where
  recv := .closed
  send := .failed
  connect := false
  create := { CreateAnswer.ok with calloc := false }
  realloc := none
  gethostbyname := false
  socket := false

/-- A worker inside the lock of the pool takes a step there. -/
theorem stepWorker_inside {i : Fin n} {pool : Pool Unit ClientCtx n}
    (inside : (s.pool.worker i).Inside) (moved : s.pool.stepWorker i = some pool) :
    s.stepWorker i = some { s with pool := pool } := by
  unfold stepWorker
  cases place : s.pool.worker i with
  | start p =>
      rw [place] at inside
      cases inside
  | running p =>
      rw [place] at inside
      cases inside
  | _ => simp only [moved, Option.map_some]

/-- A worker that holds the lock of the pool gives it up. -/
theorem exists_unlocked (reached : Transition.Reaches step (start n) s)
    (owner : s.pool.owner ≠ .setStop) (caller : ∀ p, s.pool.caller () ≠ .submit p) :
    ∃ s', Transition.ReachesBy step Wakeful s s' ∧ s'.main = s.main ∧
      s'.pool.owner = s.pool.owner ∧ s'.pool.caller = s.pool.caller ∧ s'.pool.lock = none := by
  obtain ⟨final, ran, ⟨_, main, own, calls⟩, free⟩ : ∃ v, Transition.ReachesBy step Wakeful s v ∧
      (Transition.Reaches step (start n) v ∧ v.main = s.main ∧ v.pool.owner = s.pool.owner ∧
        v.pool.caller = s.pool.caller) ∧ v.pool.lock = none :=
    Transition.exists_reachesBy_of_measure (fun v => Transition.Reaches step (start n) v ∧
      v.main = s.main ∧ v.pool.owner = s.pool.owner ∧ v.pool.caller = s.pool.caller)
    (fun v => v.pool.lock = none) (fun v => v.pool.insideWork) (fun v stage held => by
      obtain ⟨here, main, own, calls⟩ := stage
      have invariant := (reached_kept here).pool
      obtain ⟨agent, held⟩ := Option.ne_none_iff_exists'.mp held
      have inside := (invariant.owned agent).mp held
      cases agent with
      | worker i =>
          have there : (v.pool.worker i).Inside := inside
          obtain ⟨pool, moved⟩ := Option.isSome_iff_exists.mp (invariant.worker_steps (.inl there)
            (by rintro same; rw [same] at there; cases there)
            (by rintro same; rw [same] at there; cases there))
          obtain ⟨pc, turned⟩ := Pool.stepWorker_turned invariant moved
          have stepped : v.step (.worker i) = some { v with pool := pool } :=
            stepWorker_inside there moved
          refine ⟨.worker i, _, ?_, stepped, ⟨here.next _ stepped, main, turned.owner.trans own,
            turned.caller.trans calls⟩, ?_⟩
          · intro same
            rw [same] at there
            cases there
          · have turn := Tally.tally_update WorkerPc.inside v.pool.worker i pc
            have less := turned.turn.inside_lt there
            change pool.insideWork < v.pool.insideWork
            unfold Pool.insideWork
            rw [turned.worker, turned.caller]
            omega
      | owner => exact absurd (own.symm.trans inside) owner
      | caller k =>
          obtain ⟨p, place⟩ := inside
          rw [calls] at place
          exact absurd place (caller p))
    ⟨reached, rfl, rfl, rfl⟩
  exact ⟨final, ran, main, own, calls, free⟩

/-- The steps of the main thread to the end of a call that submits a task. -/
def submitWork : CallerPc → ℕ
  | .outside _ => 0
  | .free _ => 1
  | .submit _ => 2
  | .lock _ => 3

/-- The steps of `threadPoolStop` up to its joins. -/
def stopWork : OwnerPc → ℕ
  | .serving => 3
  | .lockStop => 2
  | .setStop => 1
  | _ => 0

/-- The steps of the main thread up to the joins, if no more clients come. -/
def mainWork (s : Run n) : ℕ :=
  match s.main with
  | .submit _ => 9 + submitWork (s.pool.caller ())
  | .accepted _ => 8
  | .refused _ => 8
  | .unallocated _ => 7
  | .freeContext _ => 7
  | .accept => 6
  | .closeListener => 5
  | .stop => stopWork s.pool.owner
  | _ => 0

/-- The main thread waits for the workers, or is behind that. -/
def Joining (s : Run n) : Prop :=
  (s.main = .stop ∧ Past s.pool.owner) ∨ s.main = .destroy ∨ s.main = .returned

/-- One step of the main thread. -/
theorem reachesBy_main (answers : MainAnswers n) (stepped : s.stepMain answers = some s') :
    Transition.ReachesBy step Wakeful s s' :=
  .step (.main answers) .start trivial stepped

/-- In `threadPoolSubmit` the main thread comes closer to the joins. -/
theorem exists_submitWork_lt (reached : Transition.Reaches step (start n) s) {ctx : ClientCtx}
    (place : s.main = .submit ctx) : ∃ s', Transition.ReachesBy step Wakeful s s' ∧
      s'.main ≠ .create ∧ s'.mainWork < s.mainWork := by
  have phased := reached_phased reached
  unfold Phased at phased
  rw [place] at phased
  have serving : s.pool.owner = .serving := phased
  have invariant := (reached_kept reached).pool
  cases calls : s.pool.caller () with
  | outside accepted =>
      have usable : Pool.Usable s.pool.owner := by rw [serving]; trivial
      have stepped : s.stepMain (leaving n) = some { s with
          pool := s.pool.callerGoto () (.outside false), main := .refused ctx } := by
        simp [stepMain, place, Pool.stepCaller, calls, usable, leaving, Pool.callerGoto]
      refine ⟨_, reachesBy_main _ stepped, by simp, ?_⟩
      simp only [mainWork, place]
      omega
  | free p =>
      obtain ⟨_, _, call, found⟩ := invariant.memory.pending () p (by rw [calls]; rfl)
      have stepped : ∃ pool, s.stepMain (leaving n) = some { s with
          pool := pool, main := .refused ctx } := by
        simp [stepMain, place, Pool.stepCaller, calls, found, Pool.callerGoto]
      obtain ⟨pool, stepped⟩ := stepped
      refine ⟨_, reachesBy_main _ stepped, by simp, ?_⟩
      simp only [mainWork, place]
      omega
  | submit p =>
      by_cases on : s.pool.stop = true
      · have stepped : ∃ pool : Pool Unit ClientCtx n, pool.caller () = .free p ∧
            s.stepMain (leaving n) = some { s with pool := pool, main := .submit ctx } := by
          refine ⟨{ s.pool.callerGoto () (.free p) with lock := none }, ?_, ?_⟩
          · simp [Pool.callerGoto]
          · simp [stepMain, place, Pool.stepCaller, calls, on, Pool.callerGoto]
        obtain ⟨pool, there, stepped⟩ := stepped
        refine ⟨_, reachesBy_main _ stepped, by simp, ?_⟩
        simp [mainWork, place, there, calls, submitWork]
      · obtain ⟨_, _, call, found⟩ := invariant.memory.pending () p (by rw [calls]; rfl)
        obtain ⟨pool, linked⟩ := Option.isSome_iff_exists.mp (invariant.link_steps p)
        have signalled : s.pool.Signalled fun _ => true := by
          rintro ⟨i, sleeps⟩
          exact ⟨i, sleeps, rfl⟩
        have stepped : ∃ pool, s.stepMain (leaving n) = some { s with
            pool := pool, main := .accept } := by
          simp [stepMain, place, Pool.stepCaller, calls, on, leaving, signalled, found, linked,
            Pool.callerGoto]
        obtain ⟨pool, stepped⟩ := stepped
        refine ⟨_, reachesBy_main _ stepped, by simp, ?_⟩
        simp only [mainWork, place]
        omega
  | lock p =>
      obtain ⟨v, ran, main, owner, caller, free⟩ := exists_unlocked reached
        (by rw [serving]; simp) (by intro q; rw [calls]; simp)
      have there : v.main = .submit ctx := main.trans place
      have waits : v.pool.caller () = .lock p := (congrFun caller ()).trans calls
      have stepped : ∃ pool : Pool Unit ClientCtx n, pool.caller () = .submit p ∧
          v.stepMain (leaving n) = some { v with pool := pool, main := .submit ctx } := by
        refine ⟨{ v.pool.callerGoto () (.submit p) with lock := some (.caller ()) }, ?_, ?_⟩
        · simp [Pool.callerGoto]
        · simp [stepMain, there, Pool.stepCaller, waits, free, Pool.callerGoto]
      obtain ⟨pool, inside, stepped⟩ := stepped
      refine ⟨_, ran.trans (reachesBy_main _ stepped), by simp, ?_⟩
      simp [mainWork, place, inside, calls, submitWork]

/-- `threadPoolStop` comes closer to its joins. -/
theorem exists_stopWork_lt (reached : Transition.Reaches step (start n) s)
    (place : s.main = .stop) (before : ¬ Past s.pool.owner) :
    ∃ s', Transition.ReachesBy step Wakeful s s' ∧ s'.main ≠ .create ∧
      s'.mainWork < s.mainWork := by
  have stoppable := reached_phased reached
  unfold Phased at stoppable
  rw [place] at stoppable
  rcases stoppable with owner | owner | owner | past
  · have stepped : s.stepMain (leaving n) = some { s with
        pool := s.pool.ownerGoto .lockStop } := by
      simp [stepMain, place, owner, Pool.stepOwner]
    refine ⟨_, reachesBy_main _ stepped, by simp [place], ?_⟩
    simp [mainWork, place, owner, Pool.ownerGoto, stopWork]
  · have idle := (reached_kept reached).caller_idle (by simp [place])
    obtain ⟨v, ran, main, owner', caller, free⟩ := exists_unlocked reached
      (by rw [owner]; simp) (by intro q same; rw [same] at idle; cases idle)
    have there : v.main = .stop := main.trans place
    have waits : v.pool.owner = .lockStop := owner'.trans owner
    have stepped : v.stepMain (leaving n) = some { v with
        pool := { v.pool.ownerGoto .setStop with lock := some .owner } } := by
      simp [stepMain, there, waits, Pool.stepOwner, free]
    refine ⟨_, ran.trans (reachesBy_main _ stepped), by simp [there], ?_⟩
    simp [mainWork, place, there, owner, Pool.ownerGoto, stopWork]
  · have stepped : ∃ pool : Pool Unit ClientCtx n, pool.owner = .join 0 ∧
        s.stepMain (leaving n) = some { s with pool := pool } := by
      refine ⟨{ s.pool.ownerGoto (.join 0) with
        stop := true
        worker := fun j => ThreadPool.wake true (s.pool.worker j)
        lock := none }, rfl, ?_⟩
      simp [stepMain, place, owner, Pool.stepOwner]
    obtain ⟨pool, joins, stepped⟩ := stepped
    refine ⟨_, reachesBy_main _ stepped, by simp [place], ?_⟩
    simp [mainWork, place, joins, owner, stopWork]
  · exact absurd past before

/-- Before the joins the main thread gets on, by itself or behind a worker that unlocks. -/
theorem exists_main_lt (here : Transition.Reaches step (start n) v) (created : v.main ≠ .create)
    (early : ¬ v.Joining) : ∃ v', Transition.ReachesBy step Wakeful v v' ∧ v'.main ≠ .create ∧
      v'.mainWork < v.mainWork := by
  have goes : ∀ pc v', v.stepMain (leaving n) = some v' → v'.main = pc → pc ≠ .create →
      v'.mainWork < v.mainWork → ∃ v', Transition.ReachesBy step Wakeful v v' ∧
        v'.main ≠ .create ∧ v'.mainWork < v.mainWork :=
    fun _ _ stepped there other less => ⟨_, reachesBy_main _ stepped, there ▸ other, less⟩
  cases place : v.main with
  | create => exact absurd place created
  | accept =>
      refine goes .closeListener (v.goto .closeListener) ?_ rfl (by simp) ?_
      · simp [stepMain, place, leaving]
      · simp [mainWork, place, goto]
  | accepted cfd =>
      refine goes (.unallocated cfd) (v.goto (.unallocated cfd)) ?_ rfl (by simp) ?_
      · simp [stepMain, place, leaving]
      · simp [mainWork, place, goto]
  | unallocated cfd =>
      refine goes .accept ((v.release (.client cfd)).goto .accept) ?_ rfl
        (by simp) ?_
      · simp [stepMain, place]
      · simp [mainWork, place, goto]
  | submit ctx => exact exists_submitWork_lt here place
  | refused ctx =>
      refine goes (.freeContext ctx)
        ((v.release (.client ctx.clientFd)).goto (.freeContext ctx)) ?_ rfl (by simp) ?_
      · simp [stepMain, place]
      · simp [mainWork, place, goto]
  | freeContext ctx =>
      refine goes .accept ((v.release (.context ctx.address)).goto .accept) ?_
        rfl (by simp) ?_
      · simp [stepMain, place]
      · simp [mainWork, place, goto]
  | closeListener =>
      have serving : v.pool.owner = .serving := by
        have phased := reached_phased here
        unfold Phased at phased
        rw [place] at phased
        exact phased
      refine goes .stop ((v.release (.listener v.lfd)).goto .stop) ?_ rfl
        (by simp) ?_
      · simp [stepMain, place]
      · simp [mainWork, place, goto, release, serving, stopWork]
  | stop => exact exists_stopWork_lt here place fun past => early (.inl ⟨place, past⟩)
  | destroy => exact absurd (.inr (.inl place)) early
  | returned => exact absurd (.inr (.inr place)) early

/-- Behind `threadPoolCreate` the main thread can come to the joins. -/
theorem exists_joining (reached : Transition.Reaches step (start n) s)
    (created : s.main ≠ .create) :
    ∃ s', Transition.ReachesBy step Wakeful s s' ∧ s'.Joining := by
  obtain ⟨final, ran, _, joins⟩ : ∃ v, Transition.ReachesBy step Wakeful s v ∧
      (Transition.Reaches step (start n) v ∧ v.main ≠ .create) ∧ v.Joining :=
    Transition.exists_reachesBy_of_runs
    (fun v => Transition.Reaches step (start n) v ∧ v.main ≠ .create) Joining mainWork
    (fun v within early => by
      obtain ⟨v', ran, still, less⟩ := exists_main_lt within.1 within.2 early
      exact ⟨v', ran, ⟨within.1.trans ran.reaches, still⟩, less⟩)
    ⟨reached, created⟩
  exact ⟨final, ran, joins⟩

/-! ## Through the joins -/

/-- What all handlers still have to do. -/
def handlerWork (s : Run n) : ℕ := s.proxy.work + Tally.tally HandlerPc.cost s.handler

/-- A step that moves one handler and leaves the cache alone. -/
theorem handlerWork_set_lt {i : Fin n} {pc : HandlerPc} (proxy : s'.proxy = s.proxy)
    (handler : s'.handler = Function.update s.handler i pc)
    (less : pc.cost < (s.handler i).cost) : s'.handlerWork < s.handlerWork := by
  have turn := Tally.tally_update HandlerPc.cost s.handler i pc
  unfold handlerWork
  rw [proxy, handler]
  omega

/-- A handler that goes on within the cache. -/
theorem proceed_work_lt {i : Fin n} {h : Handler} {answers : HandlerAnswers}
    (place : s.handler i = .inside h)
    (walks : ∀ connect, ∃ w, s.proxy.step (i, { answers.toAnswers with connect := connect }) =
      some w ∧ w.work < s.proxy.work) :
    ∃ s', s.proceed i h answers = some s' ∧ s'.handlerWork < s.handlerWork := by
  have possible : ∀ connect,
      (s.proxy.step (i, { answers.toAnswers with connect := connect })).isSome := fun connect => by
    obtain ⟨w, moved, _⟩ := walks connect
    exact Option.isSome_iff_exists.mpr ⟨w, moved⟩
  have lowers : ∀ connect w,
      s.proxy.step (i, { answers.toAnswers with connect := connect }) = some w →
        w.work < s.proxy.work := fun connect w moved => by
    obtain ⟨w', moved', less⟩ := walks connect
    exact Option.some.inj (moved.symm.trans moved') ▸ less
  have proceeds : (s.proceed i h answers).isSome := by
    unfold proceed
    rw [Option.isSome_map]
    exact possible _
  obtain ⟨s', proceeded⟩ := Option.isSome_iff_exists.mp proceeds
  refine ⟨s', proceeded, ?_⟩
  unfold proceed at proceeded
  obtain ⟨w, moved, rfl⟩ := Option.map_eq_some_iff.mp proceeded
  have less := lowers _ w moved
  have lower : ∀ {s' : Run n} (looped : Bool) (count : ℕ), s'.proxy = w →
      s'.handler = Function.update s.handler i
        (.inside { h with looped := looped, count := count }) →
      s'.handlerWork < s.handlerWork := by
    intro s' looped count proxy handler
    have turn := Tally.tally_update HandlerPc.cost s.handler i
      (.inside { h with looped := looped, count := count })
    have same : (HandlerPc.inside { h with looped := looped, count := count }).cost =
        (s.handler i).cost := by
      rw [place]
      rfl
    unfold handlerWork
    rw [proxy, handler]
    omega
  dsimp only
  split
  · exact lower _ _ rfl rfl
  · exact lower _ h.count rfl rfl
  · exact lower _ h.count rfl rfl

/-- Closing a descriptor is progress. -/
theorem closeNext_work_lt {i : Fin n} {h : Handler} (place : s.handler i = .inside h)
    (closed : s.closeNext i h = some s') : s'.handlerWork < s.handlerWork := by
  unfold closeNext at closed
  split at closed
  · rename_i fd connected
    obtain rfl := Option.some.inj closed
    refine handlerWork_set_lt (s := s) rfl rfl ?_
    rw [place]
    simp [HandlerPc.cost, connected, OriginFd.cost]
  · split_ifs at closed with still
    obtain rfl := Option.some.inj closed
    refine handlerWork_set_lt (s := s) rfl rfl ?_
    rw [place]
    simp [HandlerPc.cost, still]

theorem hungUp_connect (connect : Bool) :
    HungUp { hungUp.toAnswers with connect := connect } where
  recv := rfl
  send := rfl
  create := rfl

/-- A handler that is not blocked comes closer to its return. -/
theorem exists_inside_lt (reached : Transition.Reaches step (start n) s)
    (running : s.main ≠ .returned) {i : Fin n} {h : Handler} (place : s.handler i = .inside h)
    (busy : s.proxy.pc i ≠ .idle) (free : ¬ s.proxy.Blocked i) :
    ∃ s', s.stepHandler i hungUp = some s' ∧ s'.handlerWork < s.handlerWork := by
  obtain ⟨here, sound, within⟩ := reached_proxy reached running
  have proceeds : ∃ s', s.proceed i h hungUp = some s' ∧ s'.handlerWork < s.handlerWork :=
    proceed_work_lt place fun connect =>
      within.step_work_lt here sound busy free (hungUp_connect connect)
  have closesFirst : ∃ s', (s.closeNext i h).or (s.proceed i h hungUp) = some s' ∧
      s'.handlerWork < s.handlerWork := by
    cases closes : s.closeNext i h with
    | some s₁ => exact ⟨s₁, rfl, closeNext_work_lt place closes⟩
    | none => exact proceeds
  unfold stepHandler
  rw [place]
  dsimp only
  split
  · rename_i idle
    exact absurd idle busy
  · split
    · rename_i unset
      refine ⟨s.set i (.inside { h with ofd := .failed }), by simp [hungUp], ?_⟩
      refine handlerWork_set_lt (s := s) rfl rfl ?_
      rw [place]
      simp [HandlerPc.cost, unset, OriginFd.cost]
    · rename_i fd opened
      refine ⟨(s.release (.origin fd)).set i (.inside { h with ofd := .failed }),
        by simp [hungUp], ?_⟩
      refine handlerWork_set_lt (s := s) rfl rfl ?_
      rw [place]
      simp [HandlerPc.cost, opened, OriginFd.cost]
    · exact proceeds
  · split_ifs
    · exact closesFirst
    · exact proceeds
  · exact proceeds

/-- While some worker is in `handle_client`, one that neither sleeps nor waits comes closer to
the return. -/
theorem exists_handler_lt (reached : Transition.Reaches step (start n) s)
    (running : s.main ≠ .returned) {i : Fin n} (called : s.handler i ≠ .outside)
    (unfinished : s.handler i ≠ .returned) :
    ∃ j s', ¬ Asleep (s.proxy.pc j) ∧ s.stepHandler j hungUp = some s' ∧
      s'.handlerWork < s.handlerWork := by
  obtain ⟨here, sound, _⟩ := reached_proxy reached running
  have kept := reached_kept reached
  have awake : ∀ j, s.proxy.pc j = .idle → ¬ Asleep (s.proxy.pc j) := by
    rintro j idle ⟨p, offset, sleeps⟩
    rw [idle] at sleeps
    cases sleeps
  cases place : s.handler i with
  | outside => exact absurd place called
  | returned => exact absurd place unfinished
  | called ctx =>
      have idle := kept.idle i (by simp [place])
      have moved : s.proxy.step (i, hungUp.toAnswers) =
          some (s.proxy.apply i { pc := .reading [], table := s.proxy.table }) := by
        simp [World.step, idle, advance]
      refine ⟨i, { (s.release (.context ctx.address)).set i
          (.inside ⟨ctx.clientFd, false, .unset, false, 0⟩) with
          proxy := s.proxy.apply i { pc := .reading [], table := s.proxy.table } },
        awake i idle, by simp only [stepHandler, place, moved, Option.map_some], ?_⟩
      have cache := Tally.tally_update (Pc.work (Fintype.card (Fin n))) s.proxy.pc i (.reading [])
      have turn := Tally.tally_update HandlerPc.cost s.handler i
        (.inside ⟨ctx.clientFd, false, .unset, false, 0⟩)
      rw [idle] at cache
      rw [place] at turn
      simp only [HandlerPc.cost, OriginFd.cost, Pc.work, Bool.false_eq_true, if_false] at cache turn
      have walks : (s.proxy.apply i { pc := .reading [], table := s.proxy.table }).pc =
          Function.update s.proxy.pc i (.reading []) := rfl
      simp only [handlerWork, set, release, World.work, walks]
      omega
  | inside h =>
      by_cases idle : s.proxy.pc i = .idle
      · cases closes : s.closeNext i h with
        | some s₁ =>
            refine ⟨i, s₁, awake i idle, ?_, closeNext_work_lt place closes⟩
            simp only [stepHandler, place, idle, closes, Option.some_or]
        | none =>
            refine ⟨i, s.set i .returned, awake i idle, ?_, ?_⟩
            · simp only [stepHandler, place, idle, closes, Option.none_or]
            · refine handlerWork_set_lt (s := s) rfl rfl ?_
              rw [place]
              exact Nat.succ_pos _
      · obtain ⟨j, busy, free⟩ := here.exists_not_blocked sound idle
        have there : ∃ h', s.handler j = .inside h' := by
          by_contra out
          exact busy (kept.idle j (not_exists.mp out))
        obtain ⟨h', there⟩ := there
        obtain ⟨s₁, stepped, less⟩ := exists_inside_lt reached running there busy free
        exact ⟨j, s₁, fun sleeps => free (.inl sleeps), stepped, less⟩

/-- All that is left once the main thread has come to the joins, with 24 for a step of the
pool, which may call `handle_client`. -/
def restWork (s : Run n) : ℕ := 24 * s.pool.work + s.handlerWork + s.main.left

/-- While no worker is in `handle_client`, the pool goes on. -/
theorem exists_pool_lt (reached : Transition.Reaches step (start n) s) (place : s.main = .stop)
    (past : Past s.pool.owner) (unfinished : s.pool.owner ≠ .stopped)
    (quiet : ∀ i, s.handler i = .outside ∨ s.handler i = .returned) :
    ∃ label s', Wakeful s label ∧ s.step label = some s' ∧ s'.main = .stop ∧
      Past s'.pool.owner ∧ s'.restWork < s.restWork := by
  have kept := reached_kept reached
  obtain ⟨label, pool, closed, moved⟩ := Pool.exists_step kept.pool past unfinished
  obtain ⟨less, still⟩ := Pool.step_work_lt kept.pool past closed moved
  cases label with
  | caller k fn memory woken =>
      have idle := kept.caller_idle (by simp [place])
      refine absurd ?_ closed
      change (s.pool.caller ()).isOutside = true
      cases calls : s.pool.caller () with
      | outside accepted => rfl
      | _ =>
          rw [calls] at idle
          cases idle
  | owner succeeds =>
      refine ⟨.main { leaving n with create := succeeds }, { s with pool := pool }, trivial, ?_,
        place, still, ?_⟩
      · change s.stepMain _ = _
        have moved : s.pool.stepOwner succeeds = some pool := moved
        unfold stepMain
        rw [place]
        dsimp only
        split
        · rename_i same
          exact absurd same unfinished
        · rw [moved, Option.map_some]
      · simp only [restWork, handlerWork]
        omega
  | worker i =>
      have moved : s.pool.stepWorker i = some pool := moved
      have awake : s.pool.worker i ≠ .asleep := fun sleeps =>
        kept.pool.sane.sleeps i sleeps past
      cases spot : s.pool.worker i with
      | start p =>
          obtain ⟨task, found, _⟩ := kept.pool.memory.handed i p (by rw [spot]; rfl)
          have out : s.handler i = .outside := (kept.running i).mpr (by simp [spot])
          refine ⟨.worker i, { s.set i (.called task.call) with pool := pool }, awake, ?_,
            place, still, ?_⟩
          · simp [step, stepWorker, spot, found, moved]
          · have turn := Tally.tally_update HandlerPc.cost s.handler i (.called task.call)
            rw [out] at turn
            simp only [HandlerPc.cost] at turn
            simp only [restWork, handlerWork, set]
            omega
      | running p =>
          have called : s.handler i ≠ .outside := fun out => (kept.running i).mp out p spot
          have ended : s.handler i = .returned := (quiet i).resolve_left called
          refine ⟨.worker i, { s.set i .outside with pool := pool }, awake, ?_, place, still, ?_⟩
          · simp [step, stepWorker, spot, ended, moved]
          · have turn := Tally.tally_update HandlerPc.cost s.handler i .outside
            rw [ended] at turn
            simp only [HandlerPc.cost] at turn
            simp only [restWork, handlerWork, set]
            omega
      | _ =>
          refine ⟨.worker i, { s with pool := pool }, awake, ?_, place, still, ?_⟩
          · simp [step, stepWorker, spot, moved]
          · simp only [restWork, handlerWork]
            omega

/-- Behind the joins the main thread can return. -/
theorem exists_returned (reached : Transition.Reaches step (start n) s) (joining : s.Joining) :
    ∃ s', Transition.ReachesBy step Wakeful s s' ∧ s'.main = .returned := by
  obtain ⟨final, ran, _, ended⟩ : ∃ v, Transition.ReachesBy step Wakeful s v ∧
      (Transition.Reaches step (start n) v ∧ v.Joining) ∧ v.main = .returned :=
    Transition.exists_reachesBy_of_measure
    (fun v => Transition.Reaches step (start n) v ∧ v.Joining) (fun v => v.main = .returned)
    restWork (fun v ⟨here, joins⟩ unfinished => by
      suffices closer : ∃ label v', Wakeful v label ∧ v.step label = some v' ∧ v'.Joining ∧
          v'.restWork < v.restWork by
        obtain ⟨label, v', permitted, stepped, still, less⟩ := closer
        exact ⟨label, v', permitted, stepped, ⟨here.next _ stepped, still⟩, less⟩
      rcases joins with ⟨place, past⟩ | place | place
      · by_cases busy : ∃ i, v.handler i ≠ .outside ∧ v.handler i ≠ .returned
        · obtain ⟨i, called, unreturned⟩ := busy
          obtain ⟨j, v', awake, stepped, less⟩ :=
            exists_handler_lt here unfinished called unreturned
          obtain ⟨_, main, pool, _⟩ := stepHandler_proxy stepped
          refine ⟨.handler j hungUp, v', awake, stepped, .inl ⟨main.trans place, pool ▸ past⟩, ?_⟩
          unfold restWork
          rw [main, pool]
          omega
        · have quiet : ∀ i, v.handler i = .outside ∨ v.handler i = .returned := fun i => by
            by_contra some
            exact busy ⟨i, not_or.mp some⟩
          by_cases stopped : v.pool.owner = .stopped
          · refine ⟨.main (leaving n), v.goto .destroy, trivial, ?_, .inr (.inl rfl), ?_⟩
            · simp [step, stepMain, place, stopped]
            · simp [restWork, handlerWork, goto, place, MainPc.left]
          · obtain ⟨label, v', permitted, stepped, main, still, less⟩ :=
              exists_pool_lt here place past stopped quiet
            exact ⟨label, v', permitted, stepped, .inl ⟨main, still⟩, less⟩
      · refine ⟨.main (leaving n), { v.goto .returned with proxy :=
          { v.proxy with table := v.proxy.table.cacheTableDestroy } }, trivial, ?_,
          .inr (.inr rfl), ?_⟩
        · simp [step, stepMain, place]
        · simp [restWork, handlerWork, goto, place, MainPc.left, World.work]
      · exact absurd place unfinished)
    ⟨reached, joining⟩
  exact ⟨final, ran, ended⟩

/-- **`proxy_run` can return from everywhere behind `threadPoolCreate`.** Whatever the workers
are doing, readers asleep and writers waiting for their origin, some run without spurious
wake-ups leads to its return. -/
theorem proxy_run_can_return (reached : Transition.Reaches step (start n) s)
    (created : s.main ≠ .create) :
    ∃ s', Transition.ReachesBy step Wakeful s s' ∧ s'.main = .returned := by
  obtain ⟨v, ran, joining⟩ := exists_joining reached created
  obtain ⟨s', ended, returned⟩ := exists_returned (reached.trans ran.reaches) joining
  exact ⟨s', ran.trans ended, returned⟩

/-- The answers of a system that never fails, to a client that connects. -/
def welcoming : MainAnswers 2 where
  create := true
  listen := true
  accept := .client
  malloc := true
  taskMalloc := true
  woken := fun _ => true

/-- The theorem at a reader that sleeps while the writer of its entry has not connected yet. -/
theorem proxy_run_can_return_run : ∃ s s' : Run 2, Transition.Reaches step (start 2) s ∧
    s.proxy.pc 1 = .streaming 0 0 .wait ∧ Transition.ReachesBy step Wakeful s s' ∧
      s'.main = .returned := by
  have ran : ((Transition.run step (start 2)
      (List.replicate 15 (.main welcoming) ++ List.replicate 5 (.worker 0) ++
        List.replicate 5 (.worker 1) ++ List.replicate 4 (.handler 0 unreachable) ++
        List.replicate 10 (.handler 1 unreachable))).map fun s => (s.main, s.proxy.pc 1)) =
      some (.accept, .streaming 0 0 .wait) := by
    decide +kernel
  obtain ⟨s, run, seen⟩ := Option.map_eq_some_iff.mp ran
  obtain ⟨place, asleep⟩ := Prod.mk.inj seen
  have reached := Transition.Reaches.of_run run .start
  obtain ⟨s', ended, returned⟩ := proxy_run_can_return reached (by rw [place]; exact nofun)
  exact ⟨s, s', reached, asleep, ended, returned⟩

end Run

end OperationSystems.Proxy
