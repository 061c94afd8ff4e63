import OperationSystems.Proxy.References
import OperationSystems.Proxy.Run
import OperationSystems.ThreadPool.Turns

/-!
# Everything acquired is released once

Who has to give back what: the main thread what it has accepted and not yet handed
on, the queue and the worker that has taken a task what the task's context names, a
handler what it has opened and obtained. Every step moves, acquires or releases
accordingly, so the book stays balanced; when the main thread comes to
`cache_table_destroy` nobody has anything left.
-/

namespace OperationSystems.Proxy

open Cache ThreadPool Ledger

/-! ## The entry of a handler -/

/-- A step passes the reference to an entry on as `obtains` and `releases` say. -/
def Passes (before after : Pc) : Prop :=
  match obtains before after, releases before with
  | some p, _ => obtained before = none ∧ obtained after = some p
  | none, some p => obtained before = some p ∧ obtained after = none
  | none, none => obtained after = obtained before

theorem passes_afterJoin {request : Request} {point : JoinPoint}
    (nothing : obtained (.joining request point) = none)
    (result : CacheTable × Option (Cache.Ptr × Bool)) :
    Passes (.joining request point) (afterJoin request result).pc := by
  rcases result with ⟨t, _ | ⟨p, _ | _⟩⟩
  · exact nothing.symm
  · exact ⟨nothing, rfl⟩
  · exact ⟨nothing, rfl⟩

theorem stepJoin_passes {t : CacheTable} {request : Request} {answers : Answers}
    {point : JoinPoint} {effect : Effect}
    (moved : stepJoin t request answers point = some effect) :
    Passes (.joining request point) effect.pc := by
  cases point with
  | search =>
      simp only [stepJoin] at moved
      split at moved
      · cases moved
      · obtain rfl := Option.some.inj moved
        exact passes_afterJoin rfl _
      · obtain rfl := Option.some.inj moved
        rfl
  | readFailed p =>
      obtain ⟨e, _, rfl⟩ := Option.map_eq_some_iff.mp moved
      rfl
  | decide p isFailed =>
      obtain ⟨result, _, rfl⟩ := Option.map_eq_some_iff.mp moved
      exact passes_afterJoin rfl _
  | _ =>
      obtain rfl := Option.some.inj moved
      rfl

theorem stepStream_passes {t : CacheTable} {p : Cache.Ptr} {offset : Nat} {answers : Answers}
    {point : StreamPoint} {effect : Effect}
    (moved : stepStream t p offset answers point = some effect) :
    Passes (.streaming p offset point) effect.pc := by
  cases point with
  | pass =>
      obtain ⟨e, _, rfl⟩ := Option.map_eq_some_iff.mp moved
      dsimp only
      split
      · rfl
      · rfl
      · rfl
      · split <;> rfl
  | send left =>
      obtain rfl := Option.some.inj moved
      dsimp only
      split <;> rfl
  | _ =>
      obtain rfl := Option.some.inj moved
      rfl

theorem stepFetch_passes {t : CacheTable} {request : Request} {p : Cache.Ptr} {total : Nat}
    {alive : Bool} {answers : Answers} {point : FetchPoint} {effect : Effect}
    (moved : stepFetch t request p total alive answers point = some effect) :
    Passes (.fetching request p total alive point) effect.pc := by
  cases point with
  | recv =>
      simp only [stepFetch] at moved
      split at moved
      · obtain rfl := Option.some.inj moved
        rfl
      · obtain rfl := Option.some.inj moved
        rfl
      · obtain rfl := Option.some.inj moved
        rfl
      · obtain rfl := Option.some.inj moved
        rfl
      · obtain ⟨block, _, rfl⟩ := Option.map_eq_some_iff.mp moved
        rfl
  | append block =>
      obtain ⟨e, _, rfl⟩ := Option.map_eq_some_iff.mp moved
      rfl
  | relay left =>
      obtain rfl := Option.some.inj moved
      dsimp only
      split <;> rfl
  | mark complete =>
      obtain ⟨e, _, rfl⟩ := Option.map_eq_some_iff.mp moved
      rfl
  | _ =>
      obtain rfl := Option.some.inj moved
      rfl

theorem stepRelease_passes {t : CacheTable} {p : Cache.Ptr} {amWriter : Bool}
    {point : ReleasePoint} {effect : Effect}
    (moved : stepRelease t p amWriter point = some effect) :
    Passes (.releasing p amWriter point) effect.pc := by
  cases point with
  | decrement =>
      obtain ⟨e, _, rfl⟩ := Option.map_eq_some_iff.mp moved
      split_ifs
      · exact ⟨rfl, rfl⟩
      · exact ⟨rfl, rfl⟩
  | readFlags =>
      obtain ⟨e, _, rfl⟩ := Option.map_eq_some_iff.mp moved
      rfl
  | decide keep =>
      cases keep with
      | true =>
          obtain rfl := Option.some.inj moved
          rfl
      | false =>
          obtain ⟨e, _, moved⟩ := Option.bind_eq_some_iff.mp moved
          obtain ⟨t', _, rfl⟩ := Option.map_eq_some_iff.mp moved
          rfl
  | _ =>
      obtain rfl := Option.some.inj moved
      rfl

/-- **One step** keeps the reference that the worker has, obtains one or gives it up. -/
theorem advance_passes {t : CacheTable} {answers : Answers} {pc : Pc} {effect : Effect}
    (moved : advance t answers pc = some effect) : Passes pc effect.pc := by
  cases pc with
  | idle =>
      obtain rfl := Option.some.inj moved
      rfl
  | reading buf =>
      rcases stepRead_cases moved with rfl | ⟨more, rfl⟩ | ⟨request, rfl⟩
      · rfl
      · rfl
      · rfl
  | joining request point => exact stepJoin_passes moved
  | streaming p offset point => exact stepStream_passes moved
  | fetching request p total alive point => exact stepFetch_passes moved
  | releasing p amWriter point => exact stepRelease_passes moved

theorem obtained_rouse (broadcast : Option Cache.Ptr) (pc : Pc) :
    obtained (rouse broadcast pc) = obtained pc := by
  rw [← held_role, ← held_role, role_rouse]

/-! ## Who holds what -/

/-- What a context names. -/
def ClientCtx.resources (ctx : ClientCtx) : Multiset Resource :=
  {.client ctx.clientFd} + {.context ctx.address}

def MainPc.holds (lfd : ℕ) : MainPc → Multiset Resource
  | .create => 0
  | .accept => {.listener lfd}
  | .accepted cfd => {.listener lfd} + {.client cfd}
  | .unallocated cfd => {.listener lfd} + {.client cfd}
  | .submit ctx => {.listener lfd} + ctx.resources
  | .refused ctx => {.listener lfd} + ctx.resources
  | .freeContext ctx => {.listener lfd} + {.context ctx.address}
  | .closeListener => {.listener lfd}
  | .stop => 0
  | .destroy => 0
  | .returned => 0

def OriginFd.holds : OriginFd → Multiset Resource
  | .opened fd => {.origin fd}
  | .connected ofd => {.origin ofd}
  | _ => 0

/-- What a worker in `handle_client` holds, given the entry it has obtained. -/
def HandlerPc.holds : HandlerPc × Option Cache.Ptr → Multiset Resource
  | (.outside, _) => 0
  | (.called ctx, _) => ctx.resources
  | (.inside h, entry) => (if h.closed then 0 else {.client h.cfd}) + h.ofd.holds +
      entry.elim 0 fun p => {.reference h.count p}
  | (.returned, _) => 0

/-- What a worker holds in `handle_client` before it opens or obtains anything. -/
theorem HandlerPc.holds_of_not_inside {pc : HandlerPc} (out : ∀ h, pc ≠ .inside h)
    (entry : Option Cache.Ptr) : HandlerPc.holds (pc, entry) = HandlerPc.holds (pc, none) := by
  cases pc with
  | inside h => exact absurd rfl (out h)
  | _ => rfl

namespace Run

variable {n : ℕ} {s s' : Run n}

/-- Where each worker is in `handle_client`, with the entry it has obtained. -/
def hands (s : Run n) (i : Fin n) : HandlerPc × Option Cache.Ptr :=
  (s.handler i, obtained (s.proxy.pc i))

/-- What the tasks name that were accepted and not started. -/
def queued (pool : Pool Unit ClientCtx n) : Multiset Resource :=
  pool.view.unstarted.bind fun task => task.2.resources

/-- Everything that somebody still has to give back. -/
def held (s : Run n) : Multiset Resource :=
  s.main.holds s.lfd + queued s.pool + Tally.tally HandlerPc.holds s.hands

/-- A step of a worker in `handle_client` exchanges what it holds. -/
theorem held_handler {i : Fin n} {now : HandlerPc × Option Cache.Ptr} (main : s'.main = s.main)
    (lfd : s'.lfd = s.lfd) (queue : queued s'.pool = queued s.pool)
    (hands : s'.hands = Function.update s.hands i now) :
    s'.held + HandlerPc.holds (s.hands i) = s.held + HandlerPc.holds now := by
  have turn := Tally.tally_update HandlerPc.holds s.hands i now
  unfold held
  rw [main, lfd, queue, hands, add_assoc, turn, ← add_assoc]

/-- A step of the main thread exchanges what it holds. -/
theorem held_main (queue : queued s'.pool = queued s.pool) (hands : s'.hands = s.hands) :
    s'.held + s.main.holds s.lfd = s.held + s'.main.holds s'.lfd := by
  unfold held
  rw [queue, hands]
  ac_rfl

/-- A step of the pool passes on what the task names that it accepts or starts. -/
theorem queued_move {pool pool' : Pool Unit ClientCtx n} (invariant : pool.Invariant)
    {act : Dispatch.Act (Fin n) (ThreadPool.Ptr × ClientCtx)}
    (moved : Dispatch.Move pool.view act pool'.view) :
    queued pool' + act.starts.bind (fun task => task.2.resources) =
      queued pool + act.accepts.bind fun task => task.2.resources := by
  unfold queued
  rw [← Multiset.add_bind, ← Multiset.add_bind, moved.unstarted invariant.memory.order]

/-- The handler is in `connect_to_origin`. -/
def Connecting : Pc → Prop
  | .fetching _ _ _ _ .connect => True
  | _ => False

/-- Where the threads are with respect to each other, and the book. -/
structure Kept (s : Run n) : Prop where
  pool : s.pool.Invariant
  running : ∀ i, s.handler i = .outside ↔ ∀ p, s.pool.worker i ≠ .running p
  idle : ∀ i, (∀ h, s.handler i ≠ .inside h) → s.proxy.pc i = .idle
  opening : ∀ i h fd, s.handler i = .inside h → h.ofd = .opened fd → Connecting (s.proxy.pc i)
  submitting : ∀ p, (s.pool.caller ()).task = some p →
    ∃ ctx, s.main = .submit ctx ∧ (s.pool.heap p).map Task.call = some ctx
  ended : s.main = .destroy ∨ s.main = .returned →
    s.pool.owner = .stopped ∨ s.pool.owner = .failed
  numbered : s.book.Numbered Resource.number
  balanced : s.book.Balanced s.held

theorem Kept.start : (start n).Kept where
  pool := Pool.Invariant.start
  running := fun _ => iff_of_true rfl fun _ there => by cases there
  idle := fun _ _ => rfl
  opening := fun _ _ _ there => by cases there
  submitting := fun _ there => by cases there
  ended := fun there => by rcases there with there | there <;> cases there
  numbered := rfl
  balanced := by
    have handlers : Tally.tally HandlerPc.holds (Run.start n).hands = 0 :=
      Tally.tally_eq_zero fun i => (rfl : HandlerPc.holds ((Run.start n).hands i) = 0)
    have workers : Tally.tally Dispatch.Hand.unstarted (Run.start n).pool.view.hand = 0 :=
      Tally.tally_eq_zero fun i => (rfl : ((Run.start n).pool.view.hand i).unstarted = 0)
    have nothing : (Run.start n).held = 0 := by
      unfold held queued Dispatch.State.unstarted
      rw [handlers, workers]
      rfl
    rw [nothing]
    rfl

/-- Outside `threadPoolSubmit` the main thread has no task in its hand. -/
theorem Kept.caller_idle (kept : s.Kept) (other : ∀ ctx, s.main ≠ .submit ctx) :
    (s.pool.caller ()).task = none := by
  by_contra some
  obtain ⟨p, has⟩ := Option.ne_none_iff_exists'.mp some
  obtain ⟨ctx, there, _⟩ := kept.submitting p has
  exact other ctx there

/-- The main thread moves on outside the pool. -/
theorem Kept.main_step (kept : s.Kept) (other : ∀ ctx, s.main ≠ .submit ctx)
    (pool : s'.pool = s.pool) (handler : s'.handler = s.handler)
    (pcs : s'.proxy.pc = s.proxy.pc)
    (ended : s'.main = .destroy ∨ s'.main = .returned →
      s.pool.owner = .stopped ∨ s.pool.owner = .failed)
    (numbered : s'.book.Numbered Resource.number)
    (balanced : s'.held + s.main.holds s.lfd = s.held + s'.main.holds s'.lfd →
      s'.book.Balanced s'.held) : s'.Kept where
  pool := by rw [pool]; exact kept.pool
  running := by rw [pool, handler]; exact kept.running
  idle := by rw [handler, pcs]; exact kept.idle
  opening := by rw [handler, pcs]; exact kept.opening
  submitting := by
    rw [pool, kept.caller_idle other]
    intro p has
    cases has
  ended := by rw [pool]; exact ended
  numbered := numbered
  balanced := by
    refine balanced (held_main (by rw [pool]) ?_)
    funext i
    unfold hands
    rw [handler, pcs]

section Main

variable {was pc : MainPc} {item : Resource} (kept : s.Kept) (place : s.main = was)
  (other : ∀ ctx, was ≠ .submit ctx)

include kept place other

/-- The main thread moves on and holds what it held. -/
theorem Kept.main_keep
    (ended : pc = .destroy ∨ pc = .returned → s.pool.owner = .stopped ∨ s.pool.owner = .failed)
    (same : pc.holds s.lfd = was.holds s.lfd) : (s.goto pc).Kept := by
  subst place
  refine kept.main_step other rfl rfl rfl ended kept.numbered fun exchange => ?_
  exact kept.balanced.keep exchange same

/-- The main thread releases what it held. -/
theorem Kept.main_release (ended : ¬ (pc = .destroy ∨ pc = .returned))
    (less : was.holds s.lfd = pc.holds s.lfd + {item}) : ((s.release item).goto pc).Kept := by
  subst place
  refine kept.main_step other rfl rfl rfl (fun there => absurd there ended) kept.numbered
    fun exchange => ?_
  exact kept.balanced.loss exchange less

/-- The main thread acquires something. -/
theorem Kept.main_acquire {lfd : ℕ} (ended : ¬ (pc = .destroy ∨ pc = .returned))
    (next : item.number = s.next) (more : pc.holds lfd = was.holds s.lfd + {item}) :
    (({ s with lfd := lfd }.acquire item).goto pc).Kept := by
  subst place
  refine kept.main_step other rfl rfl rfl (fun there => absurd there ended)
    (kept.numbered.acquire next) fun exchange => ?_
  exact kept.balanced.gain exchange more

end Main

/-- The main thread creates or stops the pool. -/
theorem Kept.owner_step (kept : s.Kept) {answer : Bool} {pool : Pool Unit ClientCtx n}
    (stepped : s.pool.stepOwner answer = some pool) (early : s.main = .create ∨ s.main = .stop) :
    Kept { s with pool := pool } where
  pool := (Pool.stepOwner_refined kept.pool stepped).invariant
  running := fun i => by
    obtain ⟨_, same⟩ := Pool.stepOwner_frame kept.pool stepped
    rw [kept.running i]
    exact forall_congr' fun p => not_congr (same i p).symm
  idle := kept.idle
  opening := kept.opening
  submitting := fun p has => by
    obtain ⟨same, _⟩ := Pool.stepOwner_frame kept.pool stepped
    change (pool.caller ()).task = some p at has
    rw [same, kept.caller_idle (fun ctx there => by
      rcases early with now | now <;> rw [there] at now <;> cases now)] at has
    cases has
  ended := fun there => by
    rcases early with now | now <;> rcases there with there | there <;>
      exact absurd (now.symm.trans there) (by simp)
  numbered := kept.numbered
  balanced := by
    have same : queued pool = queued s.pool := by
      have moved := (Pool.stepOwner_refined kept.pool stepped).view
      unfold queued
      rw [show pool.view = s.pool.view from moved]
    have equal : held { s with pool := pool } = s.held := by
      unfold held
      rw [same]
      rfl
    rw [equal]
    exact kept.balanced

/-- The main thread takes a step of `threadPoolSubmit`, after which it is at `main`. -/
theorem Kept.submit_step (kept : s.Kept) {ctx : ClientCtx} {malloc : Bool} {woken : Fin n → Bool}
    {pool : Pool Unit ClientCtx n} {main : MainPc} (place : s.main = .submit ctx)
    (stepped : s.pool.stepCaller () (some ctx) malloc woken = some pool)
    (task : ∀ p, (pool.caller ()).task = some p →
      main = .submit ctx ∧ (pool.heap p).map Task.call = some ctx)
    (ended : main ≠ .destroy ∧ main ≠ .returned)
    (balance : main.holds s.lfd + queued pool = (MainPc.submit ctx).holds s.lfd + queued s.pool) :
    Kept { s with pool := pool, main := main } where
  pool := (Pool.stepCaller_refined kept.pool stepped).invariant
  running := fun i => by
    rw [kept.running i]
    exact forall_congr' fun p => not_congr (Pool.stepCaller_running stepped i p).symm
  idle := kept.idle
  opening := kept.opening
  submitting := fun p has => ⟨ctx, task p has⟩
  ended := fun there => by rcases there with there | there <;> exact absurd there (by simp [ended])
  numbered := kept.numbered
  balanced := by
    have same : held { s with pool := pool, main := main } = s.held := by
      unfold held
      rw [place, ← balance]
      rfl
    rw [same]
    exact kept.balanced

/-- `threadPoolSubmit` takes the context, or leaves it to the main thread. -/
theorem stepMain_submit_kept (kept : s.Kept) {ctx : ClientCtx} {malloc : Bool}
    {woken : Fin n → Bool} {pool : Pool Unit ClientCtx n} (place : s.main = .submit ctx)
    (stepped : s.pool.stepCaller () (some ctx) malloc woken = some pool) :
    Kept { s with
      pool := pool
      main := match pool.caller () with
        | .outside true => .accept
        | .outside false => .refused ctx
        | _ => .submit ctx } := by
  have named : ∀ p, (s.pool.caller ()).task = some p →
      (s.pool.heap p).map Task.call = some ctx := by
    intro p has
    obtain ⟨other, there, call⟩ := kept.submitting p has
    rw [place] at there
    cases there
    exact call
  have moved := (Pool.stepCaller_refined kept.pool stepped).view
  rcases Pool.stepCaller_cases stepped with
    ⟨returned, p, task, there, found, act⟩ | ⟨returned, act⟩ | ⟨inside, act, p, has, told⟩
  · refine kept.submit_step place stepped ?_ ?_ ?_ <;> rw [returned]
    · intro q has
      cases has
    · simp
    · have call := named p (by rw [there]; rfl)
      rw [found] at call
      obtain rfl : task.call = ctx := Option.some.inj call
      rw [act] at moved
      have queue := queued_move kept.pool moved
      simp only [Dispatch.Act.starts, Dispatch.Act.accepts, Multiset.zero_bind,
        Multiset.singleton_bind, add_zero] at queue
      rw [queue]
      simp only [MainPc.holds]
      ac_rfl
  · have same : queued pool = queued s.pool := by
      rw [act] at moved
      exact congrArg (fun view => view.unstarted.bind fun task => task.2.resources) moved
    refine kept.submit_step place stepped ?_ ?_ ?_ <;> rw [returned]
    · intro q has
      cases has
    · simp
    · rw [same]
      rfl
  · have same : queued pool = queued s.pool := by
      rw [act] at moved
      exact congrArg (fun view => view.unstarted.bind fun task => task.2.resources) moved
    have stays : (match pool.caller () with
        | .outside true => MainPc.accept
        | .outside false => .refused ctx
        | _ => .submit ctx) = .submit ctx := by
      revert inside
      cases pool.caller () <;> simp [CallerPc.isOutside]
    rw [stays]
    refine kept.submit_step place stepped (fun q at_q => ⟨rfl, ?_⟩) (by simp) (by rw [same])
    obtain rfl := Option.some.inj (has.symm.trans at_q)
    rcases told with ⟨call, given, fresh⟩ | ⟨before, kept_heap⟩
    · rw [fresh, Option.some.inj given]
      rfl
    · rw [kept_heap]
      exact named _ before

theorem stepMain_kept (kept : s.Kept) {answers : MainAnswers n}
    (stepped : s.stepMain answers = some s') : s'.Kept := by
  unfold stepMain at stepped
  cases place : s.main with
  | create =>
      rw [place] at stepped
      dsimp only at stepped
      split at stepped
      · split_ifs at stepped <;> obtain rfl := Option.some.inj stepped
        · exact kept.main_acquire place (by simp) (by simp) rfl (zero_add _).symm
        · exact kept.main_keep place (by simp) (by simp) rfl
      · rename_i failed
        obtain rfl := Option.some.inj stepped
        exact kept.main_keep place (by simp) (fun _ => .inr failed) rfl
      · obtain ⟨pool, moved, rfl⟩ := Option.map_eq_some_iff.mp stepped
        have next := kept.owner_step moved (.inl place)
        rw [place] at next
        exact next
  | accept =>
      rw [place] at stepped
      dsimp only at stepped
      split at stepped <;> obtain rfl := Option.some.inj stepped
      · exact kept.main_acquire place (by simp) (by simp) rfl rfl
      · exact kept
      · exact kept.main_keep place (by simp) (by simp) rfl
  | accepted cfd =>
      rw [place] at stepped
      dsimp only at stepped
      split_ifs at stepped <;> obtain rfl := Option.some.inj stepped
      · exact kept.main_acquire place (by simp) (by simp) rfl (add_assoc _ _ _).symm
      · exact kept.main_keep place (by simp) (by simp) rfl
  | unallocated cfd =>
      rw [place] at stepped
      obtain rfl := Option.some.inj stepped
      exact kept.main_release place (by simp) (by simp) rfl
  | submit ctx =>
      rw [place] at stepped
      obtain ⟨pool, moved, rfl⟩ := Option.map_eq_some_iff.mp stepped
      exact stepMain_submit_kept kept place moved
  | refused ctx =>
      rw [place] at stepped
      obtain rfl := Option.some.inj stepped
      apply kept.main_release place (by simp) (by simp)
      simp only [MainPc.holds, ClientCtx.resources]
      ac_rfl
  | freeContext ctx =>
      rw [place] at stepped
      obtain rfl := Option.some.inj stepped
      exact kept.main_release place (by simp) (by simp) rfl
  | closeListener =>
      rw [place] at stepped
      obtain rfl := Option.some.inj stepped
      exact kept.main_release place (by simp) (by simp) (zero_add _).symm
  | stop =>
      rw [place] at stepped
      dsimp only at stepped
      split at stepped
      · rename_i ended
        obtain rfl := Option.some.inj stepped
        exact kept.main_keep place (by simp) (fun _ => .inl ended) rfl
      · obtain ⟨pool, moved, rfl⟩ := Option.map_eq_some_iff.mp stepped
        have next := kept.owner_step moved (.inr place)
        rw [place] at next
        exact next
  | destroy =>
      rw [place] at stepped
      obtain rfl := Option.some.inj stepped
      refine kept.main_step (by simp [place]) rfl rfl rfl (fun _ => kept.ended (.inl place))
        kept.numbered fun exchange => kept.balanced.keep exchange ?_
      rw [place]
      rfl
  | returned =>
      rw [place] at stepped
      cases stepped

/-! ## The workers -/

/-- A worker takes a step in `workerLoop`, after which it is at `pc` in `handle_client`. -/
theorem Kept.worker_step (kept : s.Kept) {i : Fin n} {pc : HandlerPc} {spot : WorkerPc}
    {pool : Pool Unit ClientCtx n} (stepped : s.pool.stepWorker i = some pool)
    (turned : Pool.Turned s.pool pool i spot)
    (there : pc = .outside ↔ ∀ p, spot ≠ .running p) (out : ∀ h, pc ≠ .inside h)
    (before : ∀ h, s.handler i ≠ .inside h)
    (balance : queued pool + HandlerPc.holds (pc, none) =
      queued s.pool + HandlerPc.holds (s.handler i, none)) :
    Kept { s.set i pc with pool := pool } where
  pool := (Pool.stepWorker_refined kept.pool stepped).invariant
  running := fun j => by
    change Function.update s.handler i pc j = _ ↔ ∀ p, pool.worker j ≠ _
    rw [turned.worker]
    by_cases self : j = i
    · subst self
      rw [Function.update_self, Function.update_self]
      exact there
    · rw [Function.update_of_ne self, Function.update_of_ne self]
      exact kept.running j
  idle := fun j quiet => by
    by_cases self : j = i
    · subst self
      exact kept.idle j before
    · refine kept.idle j fun h now => quiet h ?_
      exact (Function.update_of_ne self _ _).trans now
  opening := fun j h fd now opened => by
    change Function.update s.handler i pc j = _ at now
    by_cases self : j = i
    · subst self
      rw [Function.update_self] at now
      exact absurd now (out h)
    · rw [Function.update_of_ne self] at now
      exact kept.opening j h fd now opened
  submitting := fun p has => by
    change (pool.caller ()).task = some p at has
    rw [turned.caller] at has
    obtain ⟨ctx, submits, call⟩ := kept.submitting p has
    refine ⟨ctx, submits, ?_⟩
    have apart : (s.pool.worker i).task ≠ some p := fun handed => by
      obtain ⟨_, _, taken⟩ := kept.pool.memory.handed i p handed
      exact (kept.pool.memory.pending () p has).2.1
        (List.mem_map_of_mem (kept.pool.memory.order.subset taken))
    change (pool.heap p).map Task.call = some ctx
    rw [turned.heap p apart]
    exact call
  ended := by
    change _ → pool.owner = _ ∨ pool.owner = _
    rw [turned.owner]
    exact kept.ended
  numbered := kept.numbered
  balanced := by
    have turn := Tally.tally_update HandlerPc.holds s.hands i (pc, obtained (s.proxy.pc i))
    rw [HandlerPc.holds_of_not_inside out, show s.hands i = (s.handler i, _) from rfl,
      HandlerPc.holds_of_not_inside before] at turn
    have hands : hands { s.set i pc with pool := pool } =
        Function.update s.hands i (pc, obtained (s.proxy.pc i)) := by
      funext j
      by_cases self : j = i
      · subst self
        simp [Run.hands, set]
      · simp [Run.hands, set, Function.update_of_ne self]
    have same : held { s.set i pc with pool := pool } = s.held := by
      unfold held
      rw [hands]
      change s.main.holds s.lfd + queued pool + _ = _
      refine add_right_cancel (b := HandlerPc.holds (s.handler i, none)) ?_
      calc s.main.holds s.lfd + queued pool + Tally.tally HandlerPc.holds
            (Function.update s.hands i (pc, obtained (s.proxy.pc i))) +
              HandlerPc.holds (s.handler i, none)
          = s.main.holds s.lfd + (queued pool + HandlerPc.holds (pc, none)) +
              Tally.tally HandlerPc.holds s.hands := by
            rw [add_assoc, turn]
            ac_rfl
        _ = s.main.holds s.lfd + queued s.pool + Tally.tally HandlerPc.holds s.hands +
              HandlerPc.holds (s.handler i, none) := by
            rw [balance]
            ac_rfl
    rw [same]
    exact kept.balanced

/-- A worker that does not call its task leaves the queue's share alone. -/
theorem queued_worker {pool pool' : Pool Unit ClientCtx n} (invariant : pool.Invariant)
    {i : Fin n} (stepped : pool.stepWorker i = some pool')
    (other : ∀ p, pool.worker i ≠ .start p) : queued pool' = queued pool := by
  have quiet : ∀ act, pool.workerAct i = some act → act.starts = 0 ∧ act.accepts = 0 := by
    intro act does
    unfold Pool.workerAct at does
    cases place : pool.worker i with
    | start p => exact absurd place (other p)
    | take =>
        rw [place] at does
        obtain ⟨p, _, does⟩ := Option.bind_eq_some_iff.mp does
        obtain ⟨task, _, rfl⟩ := Option.map_eq_some_iff.mp does
        exact ⟨rfl, rfl⟩
    | running p =>
        rw [place] at does
        obtain ⟨task, _, rfl⟩ := Option.map_eq_some_iff.mp does
        exact ⟨rfl, rfl⟩
    | _ =>
        rw [place] at does
        cases does
  have moved := (Pool.stepWorker_refined invariant stepped).view
  cases act : pool.workerAct i with
  | none =>
      rw [act] at moved
      exact congrArg (fun view => view.unstarted.bind fun task => task.2.resources) moved
  | some one =>
      rw [act] at moved
      obtain ⟨starts, accepts⟩ := quiet one act
      have queue := queued_move invariant moved
      rwa [starts, accepts, Multiset.zero_bind, add_zero, add_zero] at queue

theorem stepWorker_kept (kept : s.Kept) {i : Fin n} (stepped : s.stepWorker i = some s') :
    s'.Kept := by
  unfold stepWorker at stepped
  split at stepped
  · rename_i p place
    obtain ⟨task, found, stepped⟩ := Option.bind_eq_some_iff.mp stepped
    obtain ⟨pool, moved, rfl⟩ := Option.map_eq_some_iff.mp stepped
    obtain ⟨spot, turned⟩ := Pool.stepWorker_turned kept.pool moved
    have out : s.handler i = .outside := (kept.running i).mpr fun q => by simp [place]
    have runs : spot = .running p := by
      have turn := turned.turn
      rw [place] at turn
      cases turn
      rfl
    subst runs
    refine kept.worker_step moved turned ?_ (by simp) (by simp [out]) ?_
    · exact iff_of_false (by simp) fun never => never p rfl
    · have act := (Pool.stepWorker_refined kept.pool moved).view
      have does : s.pool.workerAct i = some (.start i (p, task.call)) := by
        simp [Pool.workerAct, place, found]
      rw [does] at act
      have queue := queued_move kept.pool act
      simp only [Dispatch.Act.starts, Dispatch.Act.accepts, Multiset.zero_bind,
        Multiset.singleton_bind, add_zero] at queue
      rw [out]
      exact queue.trans (add_zero _).symm
  · rename_i p place
    split at stepped
    · rename_i returned
      obtain ⟨pool, moved, rfl⟩ := Option.map_eq_some_iff.mp stepped
      obtain ⟨spot, turned⟩ := Pool.stepWorker_turned kept.pool moved
      have frees : spot = .free p := by
        have turn := turned.turn
        rw [place] at turn
        cases turn
        rfl
      subst frees
      apply kept.worker_step moved turned (by simp) (by simp) (by simp [returned])
      rw [queued_worker kept.pool moved (by simp [place]), returned]
      rfl
    · cases stepped
  · rename_i calls runs
    obtain ⟨pool, moved, rfl⟩ := Option.map_eq_some_iff.mp stepped
    obtain ⟨spot, turned⟩ := Pool.stepWorker_turned kept.pool moved
    have out : s.handler i = .outside := (kept.running i).mpr runs
    have stays : ∀ p, spot ≠ .running p := by
      rintro p rfl
      have turn := turned.turn
      generalize before : s.pool.worker i = old at turn
      cases turn
      exact calls p before
    have same : { s with pool := pool } = { s.set i .outside with pool := pool } := by
      unfold set
      rw [← out, Function.update_eq_self]
    rw [same]
    apply kept.worker_step moved turned (iff_of_true rfl stays) (by simp) (by simp [out])
    rw [queued_worker kept.pool moved calls, out]

/-! ## The handlers -/

/-- What a step in `handle_client` leaves alone of the other workers. -/
structure Apart (w w' : World (Fin n)) (i : Fin n) : Prop where
  obtained : ∀ j ≠ i, obtained (w'.pc j) = obtained (w.pc j)
  idle : ∀ j ≠ i, w.pc j = .idle → w'.pc j = .idle
  connecting : ∀ j ≠ i, Connecting (w.pc j) → Connecting (w'.pc j)

theorem Apart.refl (w : World (Fin n)) (i : Fin n) : Apart w w i :=
  ⟨fun _ _ => rfl, fun _ _ => id, fun _ _ => id⟩

theorem apart_of_step {w w' : World (Fin n)} {i : Fin n} {answers : Answers}
    (stepped : w.step (i, answers) = some w') : Apart w w' i := by
  obtain ⟨effect, _, _, rfl⟩ := World.step_eq_some_iff.mp stepped
  constructor
  · intro j other
    rw [w.apply_pc_of_ne effect other, obtained_rouse]
  · intro j other idle
    rw [w.apply_pc_of_ne effect other, idle]
    cases effect.broadcast <;> rfl
  · intro j other connecting
    rw [w.apply_pc_of_ne effect other]
    revert connecting
    rcases rouse_cases effect.broadcast (w.pc j) with ⟨p, offset, _, sleeps, _⟩ | ⟨same, _⟩
    · rw [sleeps]
      exact False.elim
    · rw [same]
      exact id

theorem passes_of_step {w w' : World (Fin n)} {i : Fin n} {answers : Answers}
    (stepped : w.step (i, answers) = some w') : Passes (w.pc i) (w'.pc i) := by
  obtain ⟨effect, moved, _, rfl⟩ := World.step_eq_some_iff.mp stepped
  rw [w.apply_pc_self]
  exact advance_passes moved

/-- A worker takes a step in `handle_client`. -/
theorem Kept.handler_step (kept : s.Kept) {i : Fin n} {pc : HandlerPc} (main : s'.main = s.main)
    (lfd : s'.lfd = s.lfd) (pool : s'.pool = s.pool)
    (handler : s'.handler = Function.update s.handler i pc) (apart : Apart s.proxy s'.proxy i)
    (was : s.handler i ≠ .outside) (still : pc ≠ .outside)
    (idle : (∀ h, pc ≠ .inside h) → s'.proxy.pc i = .idle)
    (opening : ∀ h fd, pc = .inside h → h.ofd = .opened fd → Connecting (s'.proxy.pc i))
    (numbered : s'.book.Numbered Resource.number)
    (balanced : s'.held + HandlerPc.holds (s.hands i) =
      s.held + HandlerPc.holds (pc, obtained (s'.proxy.pc i)) → s'.book.Balanced s'.held) :
    s'.Kept where
  pool := by rw [pool]; exact kept.pool
  running := fun j => by
    rw [handler, pool]
    by_cases self : j = i
    · subst self
      rw [Function.update_self]
      refine iff_of_false still fun never => was ?_
      exact (kept.running j).mpr never
    · rw [Function.update_of_ne self]
      exact kept.running j
  idle := fun j quiet => by
    rw [handler] at quiet
    by_cases self : j = i
    · subst self
      rw [Function.update_self] at quiet
      exact idle quiet
    · rw [Function.update_of_ne self] at quiet
      exact apart.idle j self (kept.idle j quiet)
  opening := fun j h fd now opened => by
    rw [handler] at now
    by_cases self : j = i
    · subst self
      rw [Function.update_self] at now
      exact opening h fd now opened
    · rw [Function.update_of_ne self] at now
      exact apart.connecting j self (kept.opening j h fd now opened)
  submitting := by
    rw [pool, main]
    exact kept.submitting
  ended := by
    rw [pool, main]
    exact kept.ended
  numbered := numbered
  balanced := by
    refine balanced (held_handler main lfd (by rw [pool]) ?_)
    funext j
    unfold hands
    rw [handler]
    by_cases self : j = i
    · subst self
      simp
    · simp [Function.update_of_ne self, apart.obtained j self]

/-- What a handler inside `handle_client` has to give back. -/
theorem holds_inside {i : Fin n} {h : Handler} (place : s.handler i = .inside h) :
    HandlerPc.holds (s.hands i) = (if h.closed then 0 else {.client h.cfd}) + h.ofd.holds +
      (obtained (s.proxy.pc i)).elim 0 fun p => {.reference h.count p} := by
  unfold hands
  rw [place]
  rfl

/-- A step of `handle_client` that opens and closes nothing. -/
theorem proceed_kept (kept : s.Kept) {i : Fin n} {h : Handler} {answers : HandlerAnswers}
    (place : s.handler i = .inside h) (settled : ∀ fd, h.ofd ≠ .opened fd)
    (stepped : s.proceed i h answers = some s') : s'.Kept := by
  unfold proceed at stepped
  obtain ⟨proxy, moved, rfl⟩ := Option.map_eq_some_iff.mp stepped
  have apart := apart_of_step moved
  have passes := passes_of_step moved
  unfold Passes at passes
  have before := holds_inside place
  dsimp only
  split
  · rename_i p gains
    rw [gains] at passes
    obtain ⟨nothing, something⟩ := passes
    refine kept.handler_step rfl rfl rfl rfl apart (by simp [place]) (by simp) (by simp)
      (fun h' fd same opened => ?_) (kept.numbered.acquire rfl)
      fun exchange => kept.balanced.gain exchange ?_
    · obtain rfl := HandlerPc.inside.inj same
      exact absurd opened (settled fd)
    · rw [before, nothing]
      change _ + _ + (obtained (proxy.pc i)).elim _ _ = _
      rw [something]
      exact (congrArg (· + _) (add_zero _)).symm
  · rename_i p gains losses
    rw [gains, losses] at passes
    obtain ⟨something, nothing⟩ := passes
    refine kept.handler_step rfl rfl rfl rfl apart (by simp [place]) (by simp) (by simp)
      (fun h' fd same opened => ?_) kept.numbered
      fun exchange => kept.balanced.loss exchange ?_
    · obtain rfl := HandlerPc.inside.inj same
      exact absurd opened (settled fd)
    · rw [before, something]
      change _ = _ + _ + (obtained (proxy.pc i)).elim _ _ + _
      rw [nothing]
      exact (congrArg (· + _) (add_zero _)).symm
  · rename_i gains losses
    rw [gains, losses] at passes
    refine kept.handler_step rfl rfl rfl rfl apart (by simp [place]) (by simp) (by simp)
      (fun h' fd same opened => ?_) kept.numbered
      fun exchange => kept.balanced.keep exchange ?_
    · obtain rfl := HandlerPc.inside.inj same
      exact absurd opened (settled fd)
    · rw [before]
      change _ + _ + (obtained (proxy.pc i)).elim _ _ = _
      rw [passes]

/-- A step of `handle_client` that closes something. -/
theorem closeNext_kept (kept : s.Kept) {i : Fin n} {h : Handler} (place : s.handler i = .inside h)
    (settled : ∀ fd, h.ofd ≠ .opened fd) (stepped : s.closeNext i h = some s') : s'.Kept := by
  have before := holds_inside place
  unfold closeNext at stepped
  split at stepped
  · rename_i ofd connected
    obtain rfl := Option.some.inj stepped
    refine kept.handler_step rfl rfl rfl rfl (.refl _ _) (by simp [place]) (by simp) (by simp)
      (fun h' fd same opened => ?_) kept.numbered
      fun exchange => kept.balanced.loss exchange ?_
    · obtain rfl := HandlerPc.inside.inj same
      cases opened
    · rw [before, connected]
      simp only [HandlerPc.holds, OriginFd.holds, release, set]
      ac_rfl
  · split_ifs at stepped with closed
    obtain rfl := Option.some.inj stepped
    refine kept.handler_step rfl rfl rfl rfl (.refl _ _) (by simp [place]) (by simp) (by simp)
      (fun h' fd same opened => ?_) kept.numbered
      fun exchange => kept.balanced.loss exchange ?_
    · obtain rfl := HandlerPc.inside.inj same
      exact absurd opened (settled fd)
    · rw [before, if_neg closed]
      simp only [HandlerPc.holds, release, set, if_true]
      ac_rfl

/-- A step of `connect_to_origin`. -/
theorem connect_kept (kept : s.Kept) {i : Fin n} {h : Handler} {answers : HandlerAnswers}
    (place : s.handler i = .inside h) (connects : Connecting (s.proxy.pc i))
    (stepped : (match h.ofd with
      | .unset =>
          if answers.gethostbyname && answers.socket then
            some ((s.acquire (.origin s.next)).set i (.inside { h with ofd := .opened s.next }))
          else some (s.set i (.inside { h with ofd := .failed }))
      | .opened fd =>
          if answers.connect then some (s.set i (.inside { h with ofd := .connected fd }))
          else some ((s.release (.origin fd)).set i (.inside { h with ofd := .failed }))
      | _ => s.proceed i h answers) = some s') : s'.Kept := by
  have before := holds_inside place
  cases ofd : h.ofd with
  | unset =>
      rw [ofd] at stepped
      dsimp only at stepped
      split_ifs at stepped <;> obtain rfl := Option.some.inj stepped
      · refine kept.handler_step rfl rfl rfl rfl (.refl _ _) (by simp [place]) (by simp) (by simp)
          (fun h' fd same opened => connects) (kept.numbered.acquire rfl)
          fun exchange => kept.balanced.gain exchange ?_
        rw [before, ofd]
        simp only [HandlerPc.holds, OriginFd.holds, acquire, set, add_zero]
        ac_rfl
      · refine kept.handler_step rfl rfl rfl rfl (.refl _ _) (by simp [place]) (by simp) (by simp)
          (fun h' fd same opened => connects) kept.numbered
          fun exchange => kept.balanced.keep exchange ?_
        rw [before, ofd]
        rfl
  | opened fd =>
      rw [ofd] at stepped
      dsimp only at stepped
      split_ifs at stepped <;> obtain rfl := Option.some.inj stepped
      · refine kept.handler_step rfl rfl rfl rfl (.refl _ _) (by simp [place]) (by simp) (by simp)
          (fun h' fd same opened => connects) kept.numbered
          fun exchange => kept.balanced.keep exchange ?_
        rw [before, ofd]
        rfl
      · refine kept.handler_step rfl rfl rfl rfl (.refl _ _) (by simp [place]) (by simp) (by simp)
          (fun h' fd same opened => connects) kept.numbered
          fun exchange => kept.balanced.loss exchange ?_
        rw [before, ofd]
        simp only [HandlerPc.holds, OriginFd.holds, release, set, add_zero]
        ac_rfl
  | connected fd =>
      rw [ofd] at stepped
      exact proceed_kept kept place (by simp [ofd]) stepped
  | failed =>
      rw [ofd] at stepped
      exact proceed_kept kept place (by simp [ofd]) stepped
  | closed =>
      rw [ofd] at stepped
      exact proceed_kept kept place (by simp [ofd]) stepped

theorem stepHandler_kept (kept : s.Kept) {i : Fin n} {answers : HandlerAnswers}
    (stepped : s.stepHandler i answers = some s') : s'.Kept := by
  unfold stepHandler at stepped
  cases place : s.handler i with
  | outside =>
      rw [place] at stepped
      cases stepped
  | called ctx =>
      rw [place] at stepped
      obtain ⟨proxy, moved, rfl⟩ := Option.map_eq_some_iff.mp stepped
      have passes := passes_of_step moved
      have idle := kept.idle i (by simp [place])
      rw [idle] at passes
      have nothing : obtained (proxy.pc i) = none := passes
      refine kept.handler_step rfl rfl rfl rfl (apart_of_step moved) (by simp [place]) (by simp)
        (by simp) (fun h fd same opened => ?_) kept.numbered
        fun exchange => kept.balanced.loss exchange ?_
      · obtain rfl := HandlerPc.inside.inj same
        cases opened
      · unfold hands
        rw [place]
        change ctx.resources = HandlerPc.holds (_, obtained (proxy.pc i)) + _
        rw [nothing]
        rfl
  | inside h =>
      rw [place] at stepped
      dsimp only at stepped
      have settled : ¬ Connecting (s.proxy.pc i) → ∀ fd, h.ofd ≠ .opened fd :=
        fun other fd opened => other (kept.opening i h fd place opened)
      split at stepped
      · rename_i idle
        have quiet := settled (by rw [idle]; exact id)
        cases closes : s.closeNext i h with
        | some s₁ =>
            rw [closes] at stepped
            obtain rfl := Option.some.inj stepped
            exact closeNext_kept kept place quiet closes
        | none =>
            rw [closes] at stepped
            obtain rfl := Option.some.inj stepped
            refine kept.handler_step rfl rfl rfl rfl (.refl _ _) (by simp [place]) (by simp)
              (fun _ => idle) (by simp) kept.numbered fun exchange => kept.balanced.keep exchange ?_
            unfold hands
            rw [place, idle]
            unfold closeNext at closes
            split at closes
            · cases closes
            · rename_i unconnected
              split_ifs at closes with closed
              simp only [HandlerPc.holds, closed, if_true, zero_add, obtained, Option.elim_none,
                add_zero]
              cases ofd : h.ofd with
              | opened fd => exact absurd ofd (quiet fd)
              | connected fd => exact absurd ofd (unconnected fd)
              | _ => rfl
      · rename_i there
        exact connect_kept kept place (by rw [there]; trivial) stepped
      · rename_i there
        have quiet := settled (by rw [there]; exact id)
        split_ifs at stepped
        · cases closes : s.closeNext i h with
          | some s₁ =>
              rw [closes] at stepped
              obtain rfl := Option.some.inj stepped
              exact closeNext_kept kept place quiet closes
          | none =>
              rw [closes] at stepped
              exact proceed_kept kept place quiet stepped
        · exact proceed_kept kept place quiet stepped
      · rename_i _ connects _
        refine proceed_kept kept place (settled fun there => ?_) stepped
        unfold Connecting at there
        split at there
        · rename_i connecting
          exact connects _ _ _ _ connecting
        · exact there
  | returned =>
      rw [place] at stepped
      cases stepped

/-! ## Runs -/

/-- **The step lemma.** Whatever moves, the threads keep in step and every
acquired thing has its owner. -/
theorem step_kept (kept : s.Kept) {label : RunLabel n} (stepped : s.step label = some s') :
    s'.Kept := by
  cases label with
  | main answers => exact stepMain_kept kept stepped
  | worker i => exact stepWorker_kept kept stepped
  | handler i answers => exact stepHandler_kept kept stepped

/-- **The run lemma.** So they do in every reachable state. -/
theorem reached_kept (reached : Transition.Reaches step (start n) s) : s.Kept :=
  reached.invariant Kept.start fun _ _ _ kept _ stepped => step_kept kept stepped

/-- No worker runs a task and none waits where the pool is gone. -/
theorem Kept.nothing_held (kept : s.Kept) (gone : s.main = .destroy ∨ s.main = .returned) :
    s.held = 0 := by
  have main : s.main.holds s.lfd = 0 := by rcases gone with gone | gone <;> rw [gone] <;> rfl
  obtain ⟨empty, idle⟩ := kept.pool.at_end (kept.ended gone)
  have workers : Tally.tally Dispatch.Hand.unstarted s.pool.view.hand = 0 :=
    Tally.tally_eq_zero fun i => by
      change (Pool.hand s.pool.heap (s.pool.worker i)).unstarted = 0
      rw [Pool.hand_of_task (idle i)]
      rfl
  have queue : queued s.pool = 0 := by
    unfold queued Dispatch.State.unstarted
    rw [workers, show s.pool.view.accepted.drop s.pool.view.taken.length = [] from empty]
    rfl
  have handlers : Tally.tally HandlerPc.holds s.hands = 0 := by
    refine Tally.tally_eq_zero fun i => ?_
    have out : s.handler i = .outside := (kept.running i).mpr fun p runs => by
      have none := idle i
      rw [runs] at none
      cases none
    unfold hands
    rw [out]
    rfl
  unfold held
  rw [main, queue, handlers]
  rfl

/-- **Everything is released once.** In every run of `proxy_run`, when the main thread
comes to `cache_table_destroy` and when it returns, every listening socket, client
socket, context, origin socket and reference to an entry that was acquired has been
released exactly once, and nothing else was released. -/
theorem released_once (reached : Transition.Reaches step (start n) s)
    (gone : s.main = .destroy ∨ s.main = .returned) :
    s.book.acquired.Nodup ∧ s.book.released.Perm s.book.acquired ∧
      ∀ resource, s.book.released.count resource =
        if resource ∈ s.book.acquired then 1 else 0 := by
  have kept := reached_kept reached
  have balanced := kept.balanced
  rw [kept.nothing_held gone] at balanced
  have settled := balanced.settled
  have distinct := kept.numbered.nodup
  refine ⟨distinct, settled, fun resource => ?_⟩
  rw [settled.count_eq]
  split_ifs with acquired
  · exact List.count_eq_one_of_mem distinct acquired
  · exact List.count_eq_zero_of_not_mem acquired

/-- The answers of a system that never fails, to a client that connects. -/
def granted : MainAnswers 1 where
  create := true
  listen := true
  accept := .client
  malloc := true
  taskMalloc := true
  woken := fun _ => true

/-- The answers of `refusal`, from an origin whose name is known. -/
def unreachable : HandlerAnswers := { refusal with gethostbyname := true, socket := true }

/-- The theorem at a run with two clients. There is no memory for the context of the
first; the origin of the second cannot be reached. -/
theorem released_once_run : ∃ s : Run 1, Transition.Reaches step (start 1) s ∧
    s.main = .returned ∧ s.book.released = [.client 1, .listener 0, .context 3, .origin 5,
      .reference 4 0, .client 2] ∧ s.book.released.Perm s.book.acquired := by
  have ran : ((Transition.run step (start 1)
      (List.replicate 5 (.main granted) ++
        List.replicate 2 (.main { granted with malloc := false }) ++
        List.replicate 5 (.main granted) ++ [.main { granted with accept := .failed }] ++
        List.replicate 4 (.main granted) ++ List.replicate 5 (.worker 0) ++
        List.replicate 19 (.handler 0 unreachable) ++ List.replicate 5 (.worker 0) ++
        List.replicate 5 (.main granted))).map fun s => (s.main, s.book.released)) =
      some (.returned, [.client 1, .listener 0, .context 3, .origin 5, .reference 4 0,
        .client 2]) := by
    decide +kernel
  obtain ⟨s, run, seen⟩ := Option.map_eq_some_iff.mp ran
  obtain ⟨returned, released⟩ := Prod.mk.inj seen
  have reached := Transition.Reaches.of_run run .start
  exact ⟨s, reached, returned, released, (released_once reached (.inr returned)).2.1⟩

end Run

end OperationSystems.Proxy
