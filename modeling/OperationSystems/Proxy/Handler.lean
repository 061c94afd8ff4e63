import OperationSystems.Cache.Operations
import OperationSystems.Proxy.Request
import OperationSystems.Proxy.Stream

/-!
# Handlers sharing the cache

`handle_client` as a step function of one worker of the pool, and the state of
all workers with the table and the locks. A step takes one lock, or runs to the
next lock, unlock, wait or socket call; what `log_debug` reads after an unlock and
`cache_entry_destroy` are steps of their own. Any number of workers take their
steps in any order.
-/

namespace OperationSystems.Proxy

open CStrings Cache

/-- The mutexes: `t->lock`, and `e->lock` of an entry. -/
inductive Lock
  | table
  | entry (p : Ptr)
  deriving DecidableEq

/-- Where a worker is in `cache_start_or_join`. -/
inductive JoinPoint
  | lockTable
  | search
  | lockEntry (p : Ptr)
  | readFailed (p : Ptr)
  | decide (p : Ptr) (isFailed : Bool)
  | logHit (p : Ptr)
  deriving DecidableEq

/-- Where a reader is in `stream_from_cache`. -/
inductive StreamPoint
  | lockEntry
  | pass
  | wait
  | send (left : List UInt8)
  deriving DecidableEq

/-- Where a writer is between becoming the writer and `cache_release`. -/
inductive FetchPoint
  | connect
  | badGateway (left : List UInt8)
  | sendRequest (left : List UInt8)
  | recv
  | lockAppend (block : Block)
  | append (block : Block)
  | relay (left : List UInt8)
  | lockMark (complete : Bool)
  | mark (complete : Bool)
  deriving DecidableEq

/-- Where a worker is in `cache_release`. The last four points are behind the
unlock of `t->lock`. -/
inductive ReleasePoint
  | lockTable
  | decrement
  | lockEntry
  | readFlags
  | decide (keep : Bool)
  | logCount
  | logKeep
  | logFreed
  | destroy
  deriving DecidableEq

/-- Where a worker of the pool is, with the local variables it still uses. An idle
worker waits for a task. -/
inductive Pc
  | idle
  | reading (buf : List UInt8)
  | joining (request : Request) (point : JoinPoint)
  | streaming (p : Ptr) (offset : Nat) (point : StreamPoint)
  | fetching (request : Request) (p : Ptr) (total : Nat) (alive : Bool) (point : FetchPoint)
  | releasing (p : Ptr) (amWriter : Bool) (point : ReleasePoint)
  deriving DecidableEq

/-- What the calls that a step may make answer. -/
structure Answers where
  recv : RecvAnswer
  send : SendAnswer
  connect : Bool
  create : CreateAnswer
  realloc : ReallocAnswer

/-- What a step of a worker does: where the worker is then, the table, and the
locks and sleepers it touches. -/
structure Effect where
  pc : Pc
  table : CacheTable
  acquire : Option Lock := none
  release : Option Lock := none
  broadcast : Option Ptr := none

/-- The return of `cache_start_or_join`, behind the unlock. -/
def afterJoin (request : Request) (result : CacheTable × Option (Ptr × Bool)) : Effect where
  pc := match result.2 with
    | none => .idle
    | some (p, true) => .fetching request p 0 true .connect
    | some (p, false) => .joining request (.logHit p)
  table := result.1
  release := some .table

/-- `cache_start_or_join`. -/
def stepJoin (t : CacheTable) (request : Request) (answers : Answers) :
    JoinPoint → Option Effect
  | .lockTable =>
      some { pc := .joining request .search, table := t, acquire := some .table }
  | .search =>
      match t.scan (t.index request.key) request.key with
      | none => none
      | some none => some (afterJoin request (t.startNew request.key answers.create))
      | some (some p) => some { pc := .joining request (.lockEntry p), table := t }
  | .lockEntry p =>
      some { pc := .joining request (.readFailed p), table := t, acquire := some (.entry p) }
  | .readFailed p => (t.heap p).map fun e =>
      { pc := .joining request (.decide p e.failed), table := t, release := some (.entry p) }
  | .decide p isFailed =>
      (t.decideFound request.key p isFailed answers.create).map (afterJoin request)
  | .logHit p => some { pc := .streaming p 0 .lockEntry, table := t }

/-- `stream_from_cache`. A sleeper may be woken at any time. -/
def stepStream (t : CacheTable) (p : Ptr) (offset : Nat) (answers : Answers) :
    StreamPoint → Option Effect
  | .lockEntry =>
      some { pc := .streaming p offset .pass, table := t, acquire := some (.entry p) }
  | .pass => (t.heap p).map fun e =>
      { pc := match streamPass e offset with
          | .wait => .streaming p offset .wait
          | .failed | .finished => .releasing p false .lockTable
          | .copied chunk next =>
              match sendAllStart chunk with
              | .sending left => .streaming p next (.send left)
              | .returned | .error => .streaming p next .lockEntry
        table := t
        release := some (.entry p) }
  | .wait => some { pc := .streaming p offset .lockEntry, table := t }
  | .send left => some
      { pc := match sendAll left answers.send with
          | .sending left => .streaming p offset (.send left)
          | .returned => .streaming p offset .lockEntry
          | .error => .releasing p false .lockTable
        table := t }

/-- The answer of the proxy when the origin cannot be reached. -/
def badGatewayText : List UInt8 :=
  ascii "HTTP/1.0 502 Bad Gateway\r\nConnection: close\r\nContent-Length: 0\r\n\r\n"

/-- `sizeof(serv_buf)`. -/
def servBufSize : Nat := 8192

/-- A block received from the origin, if `recv` can answer so. -/
def servBlock (received : List UInt8) : Option Block :=
  if size : 0 < received.length ∧ received.length ≤ servBufSize then
    some ⟨received, size.2.trans (by decide)⟩
  else none

/-- `handle_client` from line 320 to its `cache_release`. -/
def stepFetch (t : CacheTable) (request : Request) (p : Ptr) (total : Nat) (alive : Bool)
    (answers : Answers) : FetchPoint → Option Effect
  | .connect => some
      { pc := .fetching request p total alive <|
          if answers.connect then
            match request.originRequest with
            | some req => .sendRequest req
            | none => .lockMark false
          else .badGateway badGatewayText
        table := t }
  | .badGateway left => some
      { pc := .fetching request p total alive <|
          match sendAll left answers.send with
          | .sending left => .badGateway left
          | .returned | .error => .lockMark false
        table := t }
  | .sendRequest left => some
      { pc := .fetching request p total alive <|
          match sendAll left answers.send with
          | .sending left => .sendRequest left
          | .returned => .recv
          | .error => .lockMark false
        table := t }
  | .recv =>
      match answers.recv with
      | .interrupted => some { pc := .fetching request p total alive .recv, table := t }
      | .reset => some
          { pc := .fetching request p total alive (.lockMark (0 < total)), table := t }
      | .failed => some { pc := .fetching request p total alive (.lockMark false), table := t }
      | .closed => some { pc := .fetching request p total alive (.lockMark true), table := t }
      | .bytes received => (servBlock received).map fun block =>
          { pc := .fetching request p (sizeAdd total block.bytes.length) alive (.lockAppend block)
            table := t }
  | .lockAppend block => some
      { pc := .fetching request p total alive (.append block)
        table := t
        acquire := some (.entry p) }
  | .append block => (t.heap p).map fun e =>
      { pc := .fetching request p total alive <|
          if (cacheAppendData e (some block) answers.realloc).1 ≠ 0 then .lockMark false
          else if alive then .relay block.bytes
          else .recv
        table := t.modify p fun e => (cacheAppendData e (some block) answers.realloc).2
        release := some (.entry p)
        broadcast := if e.failed then none else some p }
  | .relay left => some
      { pc := match sendAll left answers.send with
          | .sending left => .fetching request p total alive (.relay left)
          | .returned => .fetching request p total alive .recv
          | .error => .fetching request p total false .recv
        table := t }
  | .lockMark complete => some
      { pc := .fetching request p total alive (.mark complete)
        table := t
        acquire := some (.entry p) }
  | .mark complete => (t.heap p).map fun _ =>
      { pc := .releasing p true .lockTable
        table := t.modify p (if complete then cacheMarkComplete else cacheMarkFailed)
        release := some (.entry p)
        broadcast := some p }

/-- `cache_release`, and the return to the pool behind it. -/
def stepRelease (t : CacheTable) (p : Ptr) (amWriter : Bool) : ReleasePoint → Option Effect
  | .lockTable => some
      { pc := .releasing p amWriter .decrement, table := t, acquire := some .table }
  | .decrement => (t.heap p).map fun e =>
      if 0 < e.refcnt - 1 then
        { pc := .releasing p amWriter .logCount, table := t.decrement p, release := some .table }
      else { pc := .releasing p amWriter .lockEntry, table := t.decrement p }
  | .lockEntry => some
      { pc := .releasing p amWriter .readFlags, table := t, acquire := some (.entry p) }
  | .readFlags => (t.heap p).map fun e =>
      { pc := .releasing p amWriter (.decide (e.complete && !e.failed))
        table := t
        release := some (.entry p) }
  | .decide true => some
      { pc := .releasing p amWriter .logKeep, table := t, release := some .table }
  | .decide false => (t.heap p).bind fun e => (t.unlink (t.index e.key) p).map fun t' =>
      { pc := .releasing p amWriter .logFreed, table := t', release := some .table }
  | .logCount => some { pc := .idle, table := t }
  | .logKeep => some { pc := .idle, table := t }
  | .logFreed => some { pc := .releasing p amWriter .destroy, table := t }
  | .destroy => some { pc := .idle, table := t.cacheEntryDestroy p }

/-- The loop of lines 198 to 225 and the parser behind it. A run does not go on
behind an access outside `buf`. -/
def stepRead (t : CacheTable) (buf : List UInt8) (answers : Answers) : Option Effect :=
  match receive buf answers.recv with
  | none => none
  | some (.rejected _) => some { pc := .idle, table := t }
  | some (.reading buf) => some { pc := .reading buf, table := t }
  | some (.received buf) =>
      match parseRequest buf with
      | .error .fault => none
      | .error (.rejected _) => some { pc := .idle, table := t }
      | .ok request => some { pc := .joining request .lockTable, table := t }

/-- One step of a worker. `none` where memory is not there or a call does not
answer so. -/
def advance (t : CacheTable) (answers : Answers) : Pc → Option Effect
  | .idle => some { pc := .reading [], table := t }
  | .reading buf => stepRead t buf answers
  | .joining request point => stepJoin t request answers point
  | .streaming p offset point => stepStream t p offset answers point
  | .fetching request p total alive point => stepFetch t request p total alive answers point
  | .releasing p amWriter point => stepRelease t p amWriter point

/-- The table, the owners of the locks, and the workers `ι` of the pool. -/
structure World (ι : Type*) where
  table : CacheTable
  lock : Lock → Option ι
  pc : ι → Pc

/-- `pthread_cond_broadcast(&e->cond)` to one worker: a sleeper goes for `e->lock`
again. -/
def wake (p : Ptr) : Pc → Pc
  | .streaming q offset .wait =>
      if q = p then .streaming q offset .lockEntry else .streaming q offset .wait
  | pc => pc

/-- A worker after a step of another one. -/
def rouse (broadcast : Option Ptr) (pc : Pc) : Pc :=
  match broadcast with
  | none => pc
  | some p => wake p pc

namespace World

variable {ι : Type*}

/-- The pool after `cache_table_init`, before any client. -/
def start (ι : Type*) : World ι :=
  { table := emptyTable, lock := fun _ => none, pc := fun _ => .idle }

variable [DecidableEq ι]

/-- The locks after a step that released one and took one. -/
def locks (w : World ι) (i : ι) (effect : Effect) (l : Lock) : Option ι :=
  if effect.acquire = some l then some i
  else if effect.release = some l then none
  else w.lock l

/-- The workers after a step of one of them. -/
def pcs (w : World ι) (i : ι) (effect : Effect) : ι → Pc :=
  Function.update (fun j => rouse effect.broadcast (w.pc j)) i effect.pc

def apply (w : World ι) (i : ι) (effect : Effect) : World ι :=
  { table := effect.table, lock := w.locks i effect, pc := w.pcs i effect }

@[simp] theorem apply_pc_self (w : World ι) (i : ι) (effect : Effect) :
    (w.apply i effect).pc i = effect.pc := by
  simp [apply, pcs]

/-- The step of one worker can only wake another one. -/
theorem apply_pc_of_ne (w : World ι) {i j : ι} (effect : Effect) (other : j ≠ i) :
    (w.apply i effect).pc j = rouse effect.broadcast (w.pc j) := by
  simp [apply, pcs, other]

/-- A worker takes a step, unless it waits for a lock. -/
def step (w : World ι) (label : ι × Answers) : Option (World ι) :=
  match advance w.table label.2 (w.pc label.1) with
  | none => none
  | some effect =>
      match effect.acquire with
      | none => some (w.apply label.1 effect)
      | some l => if w.lock l = none then some (w.apply label.1 effect) else none

end World

end OperationSystems.Proxy
