import OperationSystems.Foundation.Ledger
import OperationSystems.Proxy.Handler
import OperationSystems.ThreadPool.Pool

/-!
# `proxy_run`

The main thread, the pool and the handlers in one step function. The main thread
creates the pool and stops it and submits one task for each client it accepts; a
worker that calls its task runs `handle_client`, whose use of the cache is that of
`Handler`, with the descriptors it opens and closes around it. What is opened,
allocated and obtained, and what is closed, freed and released, is written down in
this order.
-/

namespace OperationSystems.Proxy

open Cache ThreadPool Ledger

/-- What the proxy has to give back: the listening socket, the socket of a client, a
`client_ctx_t`, the socket to an origin, and an entry that `cache_start_or_join` has
returned. Each is numbered when it is acquired. -/
inductive Resource
  | listener (lfd : ℕ)
  | client (cfd : ℕ)
  | context (ctx : ℕ)
  | origin (ofd : ℕ)
  | reference (count : ℕ) (entry : Cache.Ptr)
  deriving DecidableEq

def Resource.number : Resource → ℕ
  | .listener lfd => lfd
  | .client cfd => cfd
  | .context ctx => ctx
  | .origin ofd => ofd
  | .reference count _ => count

/-- `client_ctx_t`, with its address. The cache is the same for all. -/
structure ClientCtx where
  address : ℕ
  clientFd : ℕ
  deriving DecidableEq

/-- Where `connect_to_origin` is, and `ofd` behind it. -/
inductive OriginFd
  | unset
  | opened (fd : ℕ)
  | connected (ofd : ℕ)
  | failed
  | closed
  deriving DecidableEq

/-- The local variables of `handle_client` that concern descriptors: `cfd` and whether
it is closed, `ofd`, whether the loop over the answer was reached, and the number of
the entry's reference. -/
structure Handler where
  cfd : ℕ
  closed : Bool
  ofd : OriginFd
  looped : Bool
  count : ℕ

/-- Where a worker is in `handle_client`: not there, at `free(ctx)`, behind it, or at
the return. -/
inductive HandlerPc
  | outside
  | called (ctx : ClientCtx)
  | inside (handler : Handler)
  | returned

/-- Where the main thread is in `proxy_run`. -/
inductive MainPc
  | create
  | accept
  | accepted (cfd : ℕ)
  | unallocated (cfd : ℕ)
  | submit (ctx : ClientCtx)
  | refused (ctx : ClientCtx)
  | freeContext (ctx : ClientCtx)
  | closeListener
  | stop
  | destroy
  | returned
  deriving DecidableEq

/-- What `accept` answers: a client, EINTR or another error. -/
inductive AcceptAnswer
  | client
  | interrupted
  | failed

/-- What the calls of the main thread answer: `pthread_create`, whether the socket
listens, `accept`, `malloc` of the context and of the task, and whom
`pthread_cond_signal` wakes. -/
structure MainAnswers (n : ℕ) where
  create : Bool
  listen : Bool
  accept : AcceptAnswer
  malloc : Bool
  taskMalloc : Bool
  woken : Fin n → Bool

/-- What the calls of a handler answer. -/
structure HandlerAnswers extends Answers where
  gethostbyname : Bool
  socket : Bool

/-- Who takes the step: the main thread, a worker in `workerLoop`, or a worker in
`handle_client`. -/
inductive RunLabel (n : ℕ)
  | main (answers : MainAnswers n)
  | worker (i : Fin n)
  | handler (i : Fin n) (answers : HandlerAnswers)

/-- The process. -/
structure Run (n : ℕ) where
  main : MainPc
  lfd : ℕ
  pool : Pool Unit ClientCtx n
  handler : Fin n → HandlerPc
  proxy : World (Fin n)
  book : Book Resource

/-- The entry that `cache_start_or_join` returns with a step. -/
def obtains : Pc → Pc → Option Cache.Ptr
  | .joining _ _, .joining _ (.logHit p) => some p
  | .joining _ _, .fetching _ p _ _ _ => some p
  | _, _ => none

/-- The entry whose reference `cache_release` gives up with a step. -/
def releases : Pc → Option Cache.Ptr
  | .releasing p _ .decrement => some p
  | _ => none

/-- The writer comes to the loop over the answer. -/
def atLoop : Pc → Bool
  | .fetching _ _ _ _ .recv => true
  | _ => false

namespace Run

variable {n : ℕ}

/-- The process after `cache_table_init`. -/
def start (n : ℕ) : Run n where
  main := .create
  lfd := 0
  pool := Pool.start Unit ClientCtx n
  handler := fun _ => .outside
  proxy := World.start (Fin n)
  book := {}

/-- The number of what is acquired next. -/
def next (s : Run n) : ℕ := s.book.acquired.length

def acquire (s : Run n) (resource : Resource) : Run n :=
  { s with book := s.book.acquire resource }

def release (s : Run n) (resource : Resource) : Run n :=
  { s with book := s.book.release resource }

/-- The main thread moves on. -/
def goto (s : Run n) (pc : MainPc) : Run n := { s with main := pc }

/-- A handler moves on. -/
def set (s : Run n) (i : Fin n) (pc : HandlerPc) : Run n :=
  { s with handler := Function.update s.handler i pc }

/-- `proxy_run`. -/
def stepMain (s : Run n) (answers : MainAnswers n) : Option (Run n) :=
  match s.main with
  | .create =>
      match s.pool.owner with
      | .serving =>
          if answers.listen then
            some (({ s with lfd := s.next }.acquire (.listener s.next)).goto .accept)
          else some (s.goto .stop)
      | .failed => some (s.goto .destroy)
      | _ => (s.pool.stepOwner answers.create).map fun pool => { s with pool := pool }
  | .accept =>
      match answers.accept with
      | .client => some ((s.acquire (.client s.next)).goto (.accepted s.next))
      | .interrupted => some s
      | .failed => some (s.goto .closeListener)
  | .accepted cfd =>
      if answers.malloc then
        some ((s.acquire (.context s.next)).goto (.submit ⟨s.next, cfd⟩))
      else some (s.goto (.unallocated cfd))
  | .unallocated cfd => some ((s.release (.client cfd)).goto .accept)
  | .submit ctx =>
      (s.pool.stepCaller () (some ctx) answers.taskMalloc answers.woken).map fun pool =>
        { s with
          pool := pool
          main := match pool.caller () with
            | .outside true => .accept
            | .outside false => .refused ctx
            | _ => .submit ctx }
  | .refused ctx => some ((s.release (.client ctx.clientFd)).goto (.freeContext ctx))
  | .freeContext ctx => some ((s.release (.context ctx.address)).goto .accept)
  | .closeListener => some ((s.release (.listener s.lfd)).goto .stop)
  | .stop =>
      match s.pool.owner with
      | .stopped => some (s.goto .destroy)
      | _ => (s.pool.stepOwner answers.create).map fun pool => { s with pool := pool }
  | .destroy => some
      { s.goto .returned with
        proxy := { s.proxy with table := s.proxy.table.cacheTableDestroy } }
  | .returned => none

/-- `workerLoop`, which calls `handle_client` and goes on when that has returned. -/
def stepWorker (s : Run n) (i : Fin n) : Option (Run n) :=
  match s.pool.worker i with
  | .start p => (s.pool.heap p).bind fun task => (s.pool.stepWorker i).map fun pool =>
      { s.set i (.called task.call) with pool := pool }
  | .running _ =>
      match s.handler i with
      | .returned => (s.pool.stepWorker i).map fun pool => { s.set i .outside with pool := pool }
      | _ => none
  | _ => (s.pool.stepWorker i).map fun pool => { s with pool := pool }

/-- `close(ofd)`, or else `close(cfd)`, where they are still to be closed. -/
def closeNext (s : Run n) (i : Fin n) (h : Handler) : Option (Run n) :=
  match h.ofd with
  | .connected ofd => some ((s.release (.origin ofd)).set i (.inside { h with ofd := .closed }))
  | _ =>
      if h.closed then none
      else some ((s.release (.client h.cfd)).set i (.inside { h with closed := true }))

/-- A step of `handle_client` that opens and closes nothing. -/
def proceed (s : Run n) (i : Fin n) (h : Handler) (answers : HandlerAnswers) : Option (Run n) :=
  let connect := match h.ofd with
    | .connected _ => true
    | _ => false
  (s.proxy.step (i, { answers.toAnswers with connect := connect })).map fun proxy =>
    let before := s.proxy.pc i
    let after := proxy.pc i
    let h' := { h with looped := h.looped || atLoop after }
    match obtains before after, releases before with
    | some p, _ =>
        { (s.acquire (.reference s.next p)).set i (.inside { h' with count := s.next }) with
          proxy := proxy }
    | none, some p =>
        { (s.release (.reference h.count p)).set i (.inside h') with proxy := proxy }
    | none, none => { s.set i (.inside h') with proxy := proxy }

/-- `handle_client`. Its exits close `ofd` and `cfd` behind `cache_release`, except
for the one behind the loop over the answer, which closes them before. -/
def stepHandler (s : Run n) (i : Fin n) (answers : HandlerAnswers) : Option (Run n) :=
  match s.handler i with
  | .outside => none
  | .called ctx => (s.proxy.step (i, answers.toAnswers)).map fun proxy =>
      { (s.release (.context ctx.address)).set i
          (.inside ⟨ctx.clientFd, false, .unset, false, 0⟩) with
        proxy := proxy }
  | .inside h =>
      match s.proxy.pc i with
      | .idle => (s.closeNext i h).or (some (s.set i .returned))
      | .fetching _ _ _ _ .connect =>
          match h.ofd with
          | .unset =>
              if answers.gethostbyname && answers.socket then
                some ((s.acquire (.origin s.next)).set i
                  (.inside { h with ofd := .opened s.next }))
              else some (s.set i (.inside { h with ofd := .failed }))
          | .opened fd =>
              if answers.connect then some (s.set i (.inside { h with ofd := .connected fd }))
              else some ((s.release (.origin fd)).set i (.inside { h with ofd := .failed }))
          | _ => s.proceed i h answers
      | .releasing _ true .lockTable =>
          if h.looped then (s.closeNext i h).or (s.proceed i h answers)
          else s.proceed i h answers
      | _ => s.proceed i h answers
  | .returned => none

/-- One step of one thread. -/
def step (s : Run n) : RunLabel n → Option (Run n)
  | .main answers => s.stepMain answers
  | .worker i => s.stepWorker i
  | .handler i answers => s.stepHandler i answers

end Run

end OperationSystems.Proxy
