import OperationSystems.Proxy.Progress

/-!
# What goes through the sockets

The proxy with a record of its traffic: the request of each client and what was sent to
it, and for each entry the connection its writer opened, what was sent there and what
came. The record is written beside the steps and read by none of them. Whatever the
order of the steps, a client gets the answer of one connection that was opened for its
key, or the proxy's own one, and nothing of any other.
-/

namespace OperationSystems.Proxy

open CStrings Cache SharedRegistry

/-- A client's side of a worker: the request, once it is parsed, and what the worker has
sent. -/
structure Exchange where
  request : Option Request := none
  sent : List UInt8 := []

/-- The connection of an entry's writer to the origin: the request it was opened for, what
was sent and what came. -/
structure Connection where
  request : Option Request := none
  asked : List UInt8 := []
  delivered : List UInt8 := []

/-- The exchange behind a step of its worker. -/
def Exchange.after (x : Exchange) (answers : Answers) : Pc → Pc → Exchange
  | .idle, _ => {}
  | .reading _, .joining request _ => { x with request := some request }
  | .streaming _ _ (.send left), _ => { x with sent := x.sent ++ taken left answers.send }
  | .fetching _ _ _ _ (.badGateway left), _ =>
      { x with sent := x.sent ++ taken left answers.send }
  | .fetching _ _ _ _ (.relay left), _ => { x with sent := x.sent ++ taken left answers.send }
  | _, _ => x

/-- The connection behind a step of its writer. -/
def Connection.after (c : Connection) (request : Request) (answers : Answers) :
    FetchPoint → Connection
  | .connect => if answers.connect then { request := some request } else c
  | .sendRequest left => { c with asked := c.asked ++ taken left answers.send }
  | .recv =>
      match answers.recv with
      | .bytes received => { c with delivered := c.delivered ++ received }
      | _ => c
  | _ => c

/-- The connections behind a step of a worker at this point. -/
def connections (origin : Ptr → Connection) (answers : Answers) : Pc → Ptr → Connection
  | .fetching request p _ _ point =>
      Function.update origin p ((origin p).after request answers point)
  | _ => origin

/-- The proxy and its traffic. -/
structure Traffic (ι : Type*) where
  proxy : World ι
  client : ι → Exchange
  origin : Ptr → Connection

namespace Traffic

variable {ι : Type*}

def start (ι : Type*) : Traffic ι where
  proxy := World.start ι
  client := fun _ => {}
  origin := fun _ => {}

def step [DecidableEq ι] (s : Traffic ι) (label : ι × Answers) : Option (Traffic ι) :=
  (s.proxy.step label).map fun proxy =>
    { proxy := proxy
      client := Function.update s.client label.1
        ((s.client label.1).after label.2 (s.proxy.pc label.1) (proxy.pc label.1))
      origin := connections s.origin label.2 (s.proxy.pc label.1) }

/-- `send` takes some positive number of bytes or fails. -/
def SendTakes (_ : Traffic ι) (label : ι × Answers) : Prop := label.2.send ≠ .took 0

end Traffic

/-! ## What a client may get -/

/-- The connection was opened for a request with this key and has been given all of it. -/
def Connection.AskedFor (c : Connection) (key : CString) : Prop :=
  ∃ request : Request, c.request = some request ∧ request.key = key ∧ c.asked = request.originText

/-- Part of the answer that a connection gave to one whole request with this key. -/
def FromOrigin (c : Connection) (key : CString) (sent : List UInt8) : Prop :=
  ∃ request : Request, c.request = some request ∧ request.key = key ∧
    c.asked = request.originText ∧ sent <+: c.delivered

/-- A client has got part of the 502 answer, or part of what one connection delivered that
was opened for its key. -/
def Answered (origin : Ptr → Connection) (x : Exchange) : Prop :=
  x.sent <+: badGatewayText ∨
    ∃ request p, x.request = some request ∧ FromOrigin (origin p) request.key x.sent

theorem Answered.of_nil {origin : Ptr → Connection} {x : Exchange} (none : x.sent = []) :
    Answered origin x := .inl (none ▸ List.nil_prefix)

/-- A connection goes on: nothing has come yet, or it is the same one and has delivered
more. -/
def Connection.Grows (c c' : Connection) : Prop :=
  c.delivered = [] ∨
    (c'.request = c.request ∧ c'.asked = c.asked ∧ c.delivered <+: c'.delivered)

theorem Connection.Grows.refl (c : Connection) : c.Grows c :=
  .inr ⟨rfl, rfl, List.prefix_refl _⟩

/-- What a client has got stays what one connection delivered. -/
theorem Answered.mono {origin origin' : Ptr → Connection} {x : Exchange}
    (answered : Answered origin x) (grows : ∀ p, (origin p).Grows (origin' p)) :
    Answered origin' x := by
  rcases answered with front | ⟨request, p, asks, asked, opened, key, whole, front⟩
  · exact .inl front
  · rcases grows p with nothing | ⟨same, sent, more⟩
    · exact .of_nil (List.prefix_nil.mp (nothing ▸ front))
    · exact .inr ⟨request, p, asks, asked, same.trans opened, key, sent.trans whole,
        front.trans more⟩

/-! ## What the workers have passed on -/

/-- What a reader has copied and not sent yet. -/
def StreamPoint.pending : StreamPoint → List UInt8
  | .send left => left
  | _ => []

/-- A client whose worker streams an entry has got what lies before the offset, but for
the chunk that is being sent. -/
structure Streams (e : CacheEntry) (x : Exchange) (offset : Nat) (pending : List UInt8) :
    Prop where
  inside : offset ≤ e.size
  text : x.sent ++ pending = e.stored.take offset

/-- The writer has got an answer to its whole request. -/
structure Receives (c : Connection) (request : Request) (come : List UInt8) : Prop where
  opened : c.request = some request
  whole : c.asked = request.originText
  delivered : c.delivered = come

/-- The client of a writer has got all that is stored as long as it takes it. -/
structure KeptUp (stored sent : List UInt8) (alive : Bool) : Prop where
  front : sent <+: stored
  whole : alive = true → sent = stored

/-- What has gone through the two sockets of a writer. -/
def Fetches (e : CacheEntry) (c : Connection) (request : Request) (sent : List UInt8)
    (alive : Bool) : FetchPoint → Prop
  | .connect => c = {} ∧ e.stored = [] ∧ sent = []
  | .badGateway left => c = {} ∧ e.stored = [] ∧ sent ++ left = badGatewayText
  | .sendRequest left => c.request = some request ∧ c.asked ++ left = request.originText ∧
      c.delivered = [] ∧ e.stored = [] ∧ sent = []
  | .recv => Receives c request e.stored ∧ KeptUp e.stored sent alive
  | .lockAppend block => Receives c request (e.stored ++ block.bytes) ∧ KeptUp e.stored sent alive
  | .append block => Receives c request (e.stored ++ block.bytes) ∧ KeptUp e.stored sent alive
  | .relay left => Receives c request e.stored ∧ sent ++ left = e.stored
  | .lockMark complete => Ends complete
  | .mark complete => Ends complete
where
  /-- The fetch is over: what the client has got, and that it is everything where the
  answer counts as complete. -/
  Ends (complete : Bool) : Prop :=
    (sent <+: badGatewayText ∨ FromOrigin c request.key sent) ∧ e.stored <+: c.delivered ∧
      (complete = true → c.AskedFor request.key ∧ c.delivered = e.stored ∧
        (alive = true → sent = e.stored))

/-- What has gone through the sockets of a worker. -/
def Serves (t : CacheTable) (origin : Ptr → Connection) (x : Exchange) : Pc → Prop
  | .idle => Answered origin x
  | .reading _ => x.sent = []
  | .joining request _ => x.request = some request ∧ x.sent = []
  | .streaming p offset point => ∃ e, t.heap p = some e ∧
      x.request.map Request.key = some e.key ∧ Streams e x offset point.pending
  | .fetching request p _ alive point => x.request = some request ∧
      ∃ e, t.heap p = some e ∧ Fetches e (origin p) request x.sent alive point
  | .releasing _ _ _ => Answered origin x

/-! ## One step of a worker -/

/-- What is sent to the origin is the whole text. -/
theorem originRequest_eq {request : Request} {req : List UInt8}
    (fits : request.originRequest = some req) : req = request.originText := by
  unfold Request.originRequest at fits
  split_ifs at fits
  exact (Option.some.inj fits).symm

/-- A fetch that ends without an answer. -/
theorem Fetches.Ends.of_nil {e : CacheEntry} {c : Connection} {request : Request}
    {sent : List UInt8} {alive : Bool} (stored : e.stored = []) (front : sent <+: badGatewayText) :
    Fetches.Ends e c request sent alive false :=
  ⟨.inl front, stored ▸ List.nil_prefix, fun complete => by cases complete⟩

/-- A fetch that ends behind some answer. -/
theorem Fetches.Ends.of_receives {e : CacheEntry} {c : Connection} {request : Request}
    {sent : List UInt8} {alive : Bool} (receives : Receives c request e.stored)
    (kept : KeptUp e.stored sent alive) (complete : Bool) :
    Fetches.Ends e c request sent alive complete := by
  refine ⟨.inr ⟨request, receives.opened, rfl, receives.whole, ?_⟩, ?_,
    fun _ => ⟨⟨request, receives.opened, rfl, receives.whole⟩, receives.delivered, kept.whole⟩⟩
  · rw [receives.delivered]
    exact kept.front
  · rw [receives.delivered]

/-- What a writer appends is what it has received. -/
theorem append_fetches {e : CacheEntry} {c : Connection} {request : Request} {sent : List UInt8}
    {alive : Bool} {block : Block} {answer : ReallocAnswer}
    (receives : Receives c request (e.stored ++ block.bytes)) (kept : KeptUp e.stored sent alive) :
    Fetches (cacheAppendData e (some block) answer).2 c request sent alive
      (if (cacheAppendData e (some block) answer).1 ≠ 0 then .lockMark false
        else if alive then .relay block.bytes else .recv) := by
  rcases cacheAppendData_spec e (some block) answer with ⟨next, ran, appended, _⟩ | ⟨ran, _⟩
  · have stored : next.stored = e.stored ++ block.bytes := appended.stored
    have received : Receives c request next.stored := stored ▸ receives
    rw [ran, if_neg (by simp)]
    cases alive with
    | true =>
        refine ⟨received, ?_⟩
        rw [kept.whole rfl, stored]
    | false =>
        refine ⟨received, ?_, fun lives => by cases lives⟩
        rw [stored]
        exact kept.front.trans (List.prefix_append _ _)
  · rw [ran, if_pos (by simp)]
    have delivered : e.stored <+: c.delivered := receives.delivered ▸ List.prefix_append _ _
    exact ⟨.inr ⟨request, receives.opened, rfl, receives.whole, kept.front.trans delivered⟩,
      delivered, fun complete => by cases complete⟩

/-- What comes from the origin is received as the answer to the whole request. -/
theorem recv_serves {t : CacheTable} {request : Request} {p : Ptr} {total : Nat} {alive : Bool}
    {answers : Answers} {effect : Effect} {e : CacheEntry} {origin origin' : Ptr → Connection}
    {x : Exchange} (found : t.heap p = some e) (asks : x.request = some request)
    (receives : Receives (origin p) request e.stored) (kept : KeptUp e.stored x.sent alive)
    (here : origin' p = (origin p).after request answers .recv)
    (moved : stepFetch t request p total alive answers .recv = some effect) :
    Serves effect.table origin'
      (x.after answers (.fetching request p total alive .recv) effect.pc) effect.pc := by
  simp only [stepFetch] at moved
  split at moved
  · rename_i answer
    obtain rfl := Option.some.inj moved
    refine ⟨asks, e, found, ?_⟩
    simp only [here, Connection.after, answer, Exchange.after]
    exact ⟨receives, kept⟩
  · rename_i answer
    obtain rfl := Option.some.inj moved
    refine ⟨asks, e, found, ?_⟩
    simp only [here, Connection.after, answer, Exchange.after]
    exact .of_receives receives kept _
  · rename_i answer
    obtain rfl := Option.some.inj moved
    refine ⟨asks, e, found, ?_⟩
    simp only [here, Connection.after, answer, Exchange.after]
    exact .of_receives receives kept _
  · rename_i answer
    obtain rfl := Option.some.inj moved
    refine ⟨asks, e, found, ?_⟩
    simp only [here, Connection.after, answer, Exchange.after]
    exact .of_receives receives kept _
  · rename_i received answer
    obtain ⟨block, given, rfl⟩ := Option.map_eq_some_iff.mp moved
    have bytes : block.bytes = received := by
      unfold servBlock at given
      split_ifs at given
      exact congrArg Block.bytes (Option.some.inj given).symm
    refine ⟨asks, e, found, ?_⟩
    simp only [here, Connection.after, answer, Exchange.after]
    exact ⟨⟨receives.opened, receives.whole, by rw [receives.delivered, bytes]⟩, kept⟩

/-- What the client takes of a block is the next part of what is stored. -/
theorem relay_serves {t : CacheTable} {request : Request} {p : Ptr} {total : Nat} {alive : Bool}
    {answers : Answers} {left : List UInt8} {effect : Effect} {e : CacheEntry}
    {origin origin' : Ptr → Connection} {x : Exchange} (takes : answers.send ≠ .took 0)
    (found : t.heap p = some e) (asks : x.request = some request)
    (receives : Receives (origin p) request e.stored) (text : x.sent ++ left = e.stored)
    (here : origin' p = (origin p).after request answers (.relay left))
    (moved : stepFetch t request p total alive answers (.relay left) = some effect) :
    Serves effect.table origin'
      (x.after answers (.fetching request p total alive (.relay left)) effect.pc) effect.pc := by
  obtain rfl := Option.some.inj moved
  have took := @sendAll_spec left answers.send takes
  dsimp only
  cases result : sendAll left answers.send with
  | sending rest =>
      rw [result] at took
      refine ⟨asks, e, found, ?_⟩
      rw [here]
      exact ⟨receives, by simp only [Exchange.after]; rw [List.append_assoc, took, text]⟩
  | returned =>
      rw [result] at took
      have all : x.sent ++ taken left answers.send = e.stored := by rw [took, text]
      refine ⟨asks, e, found, ?_⟩
      rw [here]
      exact ⟨receives, all ▸ List.prefix_refl _, fun _ => all⟩
  | error =>
      rw [result] at took
      refine ⟨asks, e, found, ?_⟩
      rw [here]
      refine ⟨receives, ?_, fun lives => by cases lives⟩
      simp only [Exchange.after]
      rw [took, List.append_nil]
      exact ⟨left, text⟩

/-- A step of a writer passes on what it has received, and nothing else. -/
theorem stepFetch_serves {t : CacheTable} {request : Request} {p : Ptr} {total : Nat}
    {alive : Bool} {answers : Answers} {point : FetchPoint} {effect : Effect} {e : CacheEntry}
    {origin origin' : Ptr → Connection} {x : Exchange} (takes : answers.send ≠ .took 0)
    (found : t.heap p = some e) (asks : x.request = some request)
    (fetches : Fetches e (origin p) request x.sent alive point)
    (here : origin' p = (origin p).after request answers point)
    (moved : stepFetch t request p total alive answers point = some effect) :
    Serves effect.table origin'
      (x.after answers (.fetching request p total alive point) effect.pc) effect.pc := by
  cases point with
  | connect =>
      obtain ⟨unused, stored, sent⟩ := fetches
      obtain rfl := Option.some.inj moved
      refine ⟨asks, e, found, ?_⟩
      rw [here, unused]
      simp only [Connection.after, Exchange.after]
      cases answers.connect with
      | false => exact ⟨rfl, stored, by rw [sent]; rfl⟩
      | true =>
          cases fits : request.originRequest with
          | none => exact .of_nil stored (sent ▸ List.nil_prefix)
          | some req =>
              obtain rfl := originRequest_eq fits
              exact ⟨rfl, rfl, rfl, stored, sent⟩
  | badGateway left =>
      obtain ⟨unused, stored, text⟩ := fetches
      obtain rfl := Option.some.inj moved
      have took := @sendAll_spec left answers.send takes
      refine ⟨asks, e, found, ?_⟩
      rw [here]
      simp only [Connection.after, Exchange.after]
      cases result : sendAll left answers.send with
      | sending rest =>
          rw [result] at took
          exact ⟨unused, stored, by rw [List.append_assoc, took, text]⟩
      | returned =>
          rw [result] at took
          exact .of_nil stored (by rw [took, text])
      | error =>
          rw [result] at took
          refine .of_nil stored ?_
          rw [took, List.append_nil]
          exact ⟨left, text⟩
  | sendRequest left =>
      obtain ⟨opened, text, silent, stored, sent⟩ := fetches
      obtain rfl := Option.some.inj moved
      have took := @sendAll_spec left answers.send takes
      refine ⟨asks, e, found, ?_⟩
      rw [here]
      simp only [Connection.after, Exchange.after]
      cases result : sendAll left answers.send with
      | sending rest =>
          rw [result] at took
          exact ⟨opened, by rw [List.append_assoc, took, text], silent, stored, sent⟩
      | returned =>
          rw [result] at took
          refine ⟨⟨opened, by rw [took, text], silent.trans stored.symm⟩, ?_, fun _ => ?_⟩
          · rw [sent]
            exact List.nil_prefix
          · rw [sent, stored]
      | error => exact .of_nil stored (sent ▸ List.nil_prefix)
  | recv => exact recv_serves found asks fetches.1 fetches.2 here moved
  | lockAppend block =>
      obtain rfl := Option.some.inj moved
      refine ⟨asks, e, found, ?_⟩
      rw [here]
      exact fetches
  | append block =>
      obtain ⟨receives, kept⟩ := fetches
      obtain ⟨old, there, rfl⟩ := Option.map_eq_some_iff.mp moved
      obtain rfl := Option.some.inj (found.symm.trans there)
      refine ⟨asks, (cacheAppendData e (some block) answers.realloc).2,
        by simp [CacheTable.modify, found], ?_⟩
      rw [here]
      exact append_fetches receives kept
  | relay left => exact relay_serves takes found asks fetches.1 fetches.2 here moved
  | lockMark complete =>
      obtain rfl := Option.some.inj moved
      refine ⟨asks, e, found, ?_⟩
      rw [here]
      exact fetches
  | mark complete =>
      obtain ⟨front, _⟩ := fetches
      obtain ⟨old, there, rfl⟩ := Option.map_eq_some_iff.mp moved
      refine front.imp id fun whole => ⟨request, p, asks, ?_⟩
      rw [here]
      exact whole

/-- What is stored came from one connection, which was opened for the entry's key. -/
structure Cached (e : CacheEntry) (c : Connection) : Prop where
  front : e.stored <+: c.delivered
  whole : e.complete = true → c.AskedFor e.key ∧ e.stored = c.delivered
  key : ∀ request, c.request = some request → request.key = e.key

/-- What has come came as the answer to a whole request. -/
def Connection.Asked (c : Connection) : Prop :=
  c.delivered ≠ [] → ∃ request, c.request = some request ∧ c.asked = request.originText

/-- A client that got a front of what is stored under its key is answered. -/
theorem Cached.answered {origin : Ptr → Connection} {p : Ptr} {e : CacheEntry} {x : Exchange}
    (cached : Cached e (origin p)) (asked : (origin p).Asked)
    (asks : x.request.map Request.key = some e.key) (front : x.sent <+: e.stored) :
    Answered origin x := by
  by_cases nothing : x.sent = []
  · exact .of_nil nothing
  have come : (origin p).delivered ≠ [] := by
    intro none
    have within := front.trans cached.front
    rw [none] at within
    exact nothing (List.prefix_nil.mp within)
  obtain ⟨request, asking, key⟩ := Option.map_eq_some_iff.mp asks
  obtain ⟨opening, opened, whole⟩ := asked come
  exact .inr ⟨request, p, asking, opening, opened, (cached.key opening opened).trans key.symm,
    whole, front.trans cached.front⟩

/-- A step of a reader sends what is stored, in order. -/
theorem stepStream_serves {t : CacheTable} {p : Ptr} {offset : Nat} {answers : Answers}
    {point : StreamPoint} {effect : Effect} {origin : Ptr → Connection} {x : Exchange}
    (takes : answers.send ≠ .took 0) (cached : ∀ e, t.heap p = some e → Cached e (origin p))
    (asked : (origin p).Asked) (serves : Serves t origin x (.streaming p offset point))
    (moved : stepStream t p offset answers point = some effect) :
    Serves effect.table origin (x.after answers (.streaming p offset point) effect.pc)
      effect.pc := by
  obtain ⟨e, found, asks, inside, text⟩ := serves
  cases point with
  | lockEntry =>
      obtain rfl := Option.some.inj moved
      exact ⟨e, found, asks, inside, text⟩
  | pass =>
      have sent : x.sent = e.stored.take offset := by
        rw [← text]
        exact (List.append_nil _).symm
      have answered : Answered origin x :=
        (cached e found).answered asked asks (sent ▸ List.take_prefix _ _)
      obtain ⟨old, there, rfl⟩ := Option.map_eq_some_iff.mp moved
      obtain rfl := Option.some.inj (found.symm.trans there)
      dsimp only
      cases passed : streamPass e offset with
      | wait => exact ⟨e, found, asks, inside, text⟩
      | failed => exact answered
      | finished => exact answered
      | copied chunk next =>
          obtain ⟨more, room, _⟩ := streamPass_copied inside passed
          simp only [sendAllStart]
          split_ifs with empty
          · refine ⟨e, found, asks, room, ?_⟩
            change x.sent ++ [] = _
            rw [← more, empty, sent]
          · refine ⟨e, found, asks, room, ?_⟩
            change x.sent ++ chunk = _
            rw [sent, more]
  | wait =>
      obtain rfl := Option.some.inj moved
      exact ⟨e, found, asks, inside, text⟩
  | send left =>
      obtain rfl := Option.some.inj moved
      have took := @sendAll_spec left answers.send takes
      have split : x.sent ++ left = e.stored.take offset := text
      dsimp only
      cases result : sendAll left answers.send with
      | sending rest =>
          rw [result] at took
          refine ⟨e, found, asks, inside, ?_⟩
          change (x.sent ++ taken left answers.send) ++ rest = _
          rw [List.append_assoc, took, split]
      | returned =>
          rw [result] at took
          refine ⟨e, found, asks, inside, ?_⟩
          change (x.sent ++ taken left answers.send) ++ [] = _
          rw [took, List.append_nil, split]
      | error =>
          rw [result] at took
          refine (cached e found).answered asked asks ?_
          change x.sent ++ taken left answers.send <+: _
          rw [took, List.append_nil]
          exact List.IsPrefix.trans ⟨left, split⟩ (List.take_prefix _ _)

/-- A worker that comes out of `cache_start_or_join` has sent nothing. -/
theorem afterJoin_serves {request : Request} {point : JoinPoint}
    {answers : Answers} {origin : Ptr → Connection} {x : Exchange}
    {result : CacheTable × Option (Ptr × Bool)} (asks : x.request = some request)
    (sent : x.sent = [])
    (writer : ∀ p, result.2 = some (p, true) → origin p = {} ∧
      ∃ e, result.1.heap p = some e ∧ e.stored = []) :
    Serves (afterJoin request result).table origin
      (x.after answers (.joining request point) (afterJoin request result).pc)
      (afterJoin request result).pc := by
  rcases result with ⟨t', _ | ⟨p, _ | _⟩⟩
  · exact .of_nil sent
  · exact ⟨asks, sent⟩
  · obtain ⟨unused, e, found, stored⟩ := writer p rfl
    exact ⟨asks, e, found, unused, stored, sent⟩

/-- The entry of a new writer is new. -/
theorem startNew_writer {t : CacheTable} {key : CString} {answer : CreateAnswer} {p : Ptr}
    (made : (t.startNew key answer).2 = some (p, true)) :
    p = t.fresh ∧ ∃ e, (t.startNew key answer).1.heap p = some e ∧ e.stored = [] := by
  unfold CacheTable.startNew at made ⊢
  cases created : cacheEntryCreate answer key with
  | none =>
      rw [created] at made
      cases made
  | some e =>
      obtain rfl := cacheEntryCreate_eq created
      rw [created] at made
      obtain rfl : t.fresh = p := by simpa using made
      exact ⟨rfl, { freshEntry key with next := t.buckets (t.index key) },
        by simp [CacheTable.push], rfl⟩

/-- A release sends nothing. -/
theorem stepRelease_serves {t : CacheTable} {p : Ptr} {amWriter : Bool} {answers : Answers}
    {point : ReleasePoint} {effect : Effect} {origin : Ptr → Connection} {x : Exchange}
    (answered : Answered origin x) (moved : stepRelease t p amWriter point = some effect) :
    Serves effect.table origin (x.after answers (.releasing p amWriter point) effect.pc)
      effect.pc := by
  cases point with
  | decrement =>
      obtain ⟨e, found, rfl⟩ := Option.map_eq_some_iff.mp moved
      split_ifs
      · exact answered
      · exact answered
  | readFlags =>
      obtain ⟨e, found, rfl⟩ := Option.map_eq_some_iff.mp moved
      exact answered
  | decide keep =>
      cases keep with
      | true => exact Option.some.inj moved ▸ answered
      | false =>
          obtain ⟨e, found, moved⟩ := Option.bind_eq_some_iff.mp moved
          obtain ⟨t', unlinked, rfl⟩ := Option.map_eq_some_iff.mp moved
          exact answered
  | _ => exact Option.some.inj moved ▸ answered

/-- What a step of the writer does to its connection. -/
theorem Fetches.connection {e : CacheEntry} {c : Connection} {request : Request}
    {sent : List UInt8} {alive : Bool} {point : FetchPoint} (asked : c.Asked)
    (fetches : Fetches e c request sent alive point) (answers : Answers) :
    c.Grows (c.after request answers point) ∧ (c.after request answers point).Asked ∧
      c.delivered <+: (c.after request answers point).delivered ∧
      ∀ other, (c.after request answers point).request = some other →
        other = request ∨ c.request = some other := by
  cases point with
  | connect =>
      obtain ⟨rfl, _⟩ := fetches
      simp only [Connection.after]
      split_ifs
      · exact ⟨.inl rfl, fun come => absurd rfl come, List.prefix_refl _,
          fun other opened => .inl (Option.some.inj opened).symm⟩
      · exact ⟨.refl _, asked, List.prefix_refl _, fun other opened => .inr opened⟩
  | sendRequest left =>
      obtain ⟨_, _, silent, _⟩ := fetches
      exact ⟨.inl silent, fun come => absurd silent come, List.prefix_refl _,
        fun other opened => .inr opened⟩
  | recv =>
      obtain ⟨receives, _⟩ := fetches
      simp only [Connection.after]
      split
      · rename_i received answer
        have more : c.delivered <+: c.delivered ++ received := List.prefix_append _ _
        exact ⟨.inr ⟨rfl, rfl, more⟩, fun _ => ⟨request, receives.opened, receives.whole⟩, more,
          fun other opened => .inr opened⟩
      · exact ⟨.refl _, asked, List.prefix_refl _, fun other opened => .inr opened⟩
  | _ => exact ⟨.refl _, asked, List.prefix_refl _, fun other opened => .inr opened⟩

/-- A writer stores what its connection delivers. -/
theorem stepFetch_cached {t : CacheTable} {request : Request} {p : Ptr} {total : Nat}
    {alive : Bool} {answers : Answers} {point : FetchPoint} {effect : Effect} {e f : CacheEntry}
    {c : Connection} {sent : List UInt8} (found : t.heap p = some e) (key : e.key = request.key)
    (cached : Cached e c) (asked : c.Asked) (unmarked : e.complete = false)
    (fetches : Fetches e c request sent alive point)
    (moved : stepFetch t request p total alive answers point = some effect)
    (after : effect.table.heap p = some f) : Cached f (c.after request answers point) := by
  obtain ⟨_, _, more, opens⟩ := fetches.connection asked answers
  have keys : ∀ other, (c.after request answers point).request = some other →
      other.key = e.key := by
    intro other opened
    rcases opens other opened with rfl | before
    · exact key.symm
    · exact cached.key other before
  have same : effect.table = t → Cached f (c.after request answers point) := by
    intro same
    rw [same] at after
    obtain rfl := Option.some.inj (found.symm.trans after)
    refine ⟨cached.front.trans more, fun done => ?_, keys⟩
    rw [unmarked] at done
    cases done
  cases point with
  | append block =>
      obtain ⟨receives, _⟩ := fetches
      obtain ⟨old, there, rfl⟩ := Option.map_eq_some_iff.mp moved
      obtain rfl : (cacheAppendData e (some block) answers.realloc).2 = f := by
        simpa [CacheTable.modify, found] using after
      obtain ⟨named, complete, _⟩ := cacheAppendData_frame e (some block) answers.realloc
      refine ⟨?_, fun done => ?_, fun other opened => (keys other opened).trans named.symm⟩
      · change _ <+: c.delivered
        rcases cacheAppendData_spec e (some block) answers.realloc with
          ⟨next, ran, appended, _⟩ | ⟨ran, _⟩
        · rw [ran, receives.delivered, appended.stored]
          exact List.prefix_refl _
        · rw [ran]
          exact cached.front
      · rw [complete, unmarked] at done
        cases done
  | mark complete =>
      obtain ⟨_, _, whole⟩ := fetches
      obtain ⟨old, there, rfl⟩ := Option.map_eq_some_iff.mp moved
      cases complete with
      | true =>
          obtain rfl : cacheMarkComplete e = f := by
            simpa [CacheTable.modify, found] using after
          obtain ⟨askedFor, delivered, _⟩ := whole rfl
          exact ⟨cached.front, fun _ => ⟨key ▸ askedFor, delivered.symm⟩, keys⟩
      | false =>
          obtain rfl : cacheMarkFailed e = f := by
            simpa [CacheTable.modify, found] using after
          refine ⟨cached.front, fun done => ?_, keys⟩
          change e.complete = true at done
          rw [unmarked] at done
          cases done
  | recv =>
      simp only [stepFetch] at moved
      split at moved
      · exact same (Option.some.inj moved ▸ rfl)
      · exact same (Option.some.inj moved ▸ rfl)
      · exact same (Option.some.inj moved ▸ rfl)
      · exact same (Option.some.inj moved ▸ rfl)
      · obtain ⟨block, _, rfl⟩ := Option.map_eq_some_iff.mp moved
        exact same rfl
  | _ => exact same (Option.some.inj moved ▸ rfl)

/-- A new entry stores nothing. -/
theorem startNew_born {t : CacheTable} {key : CString} {answer : CreateAnswer} {q : Ptr}
    {f : CacheEntry} (after : (t.startNew key answer).1.heap q = some f) :
    t.heap q = some f ∨ f.stored = [] := by
  unfold CacheTable.startNew at after
  split at after
  · exact .inl after
  · rename_i e created
    obtain rfl := cacheEntryCreate_eq created
    by_cases same : q = t.fresh
    · subst same
      obtain rfl : { freshEntry key with next := t.buckets (t.index key) } = f := by
        simpa [CacheTable.push] using after
      exact .inr rfl
    · exact .inl (by simpa [CacheTable.push, same] using after)

/-- An entry that was not there stores nothing. -/
theorem Touches.born_empty {t : CacheTable} {pc : Pc} {effect : Effect} {q : Ptr} {f : CacheEntry}
    (touches : Touches t pc effect) (absent : t.heap q = none)
    (after : effect.table.heap q = some f) : f.stored = [] := by
  have modified : ∀ {p change}, (t.modify p change).heap q = some f → False := by
    intro p change there
    obtain ⟨e, before, _⟩ := CacheTable.modify_heap there
    rw [absent] at before
    cases before
  cases touches with
  | nothing same quiet =>
      rw [same, absent] at after
      cases after
  | create request answer =>
      refine (startNew_born after).resolve_left fun before => ?_
      rw [absent] at before
      cases before
  | decide request p isFailed answer result decided =>
      unfold CacheTable.decideFound at decided
      split at decided
      · cases decided
      · split_ifs at decided
        · obtain ⟨t', unlinked, rfl⟩ := Option.map_eq_some_iff.mp decided
          refine (startNew_born after).resolve_left fun before => ?_
          have detached := (CacheTable.unlink_detach unlinked).2 q
          rw [absent, Option.map_none, Option.map_eq_none_iff] at detached
          by_cases same : q = p
          · simp [CacheTable.cacheEntryDestroy, same] at before
          · simp [CacheTable.cacheEntryDestroy, same, detached] at before
        · obtain rfl := Option.some.inj decided
          exact (modified after).elim
  | append request p total alive block e answer found changed loud =>
      exact (modified (changed ▸ after)).elim
  | mark request p total alive complete changed loud => exact (modified (changed ▸ after)).elim
  | decrement p amWriter changed quiet => exact (modified (changed ▸ after)).elim
  | unlink p amWriter e found unlinked quiet =>
      have detached := (CacheTable.unlink_detach unlinked).2 q
      rw [absent, after] at detached
      cases detached
  | destroy p amWriter changed quiet =>
      rw [changed] at after
      by_cases same : q = p
      · simp [CacheTable.cacheEntryDestroy, same] at after
      · simp [CacheTable.cacheEntryDestroy, same, absent] at after

/-- What has gone through the sockets of a worker stays so under a step of another one that
keeps its entry. -/
theorem Serves.stable {t : CacheTable} {effect : Effect} {origin origin' : Ptr → Connection}
    {x : Exchange} {pc : Pc} (serves : Serves t origin x pc)
    (grows : ∀ q, (origin q).Grows (origin' q))
    (kept : ∀ q, obtained pc = some q → Preserves t effect q)
    (quiet : ∀ q, writing pc = some q → effect.broadcast ≠ some q ∧ origin' q = origin q) :
    Serves effect.table origin' x (rouse effect.broadcast pc) := by
  have streams : ∀ p offset (point point' : StreamPoint), point'.pending = point.pending →
      Preserves t effect p → Serves t origin x (.streaming p offset point) →
      Serves effect.table origin' x (.streaming p offset point') := by
    rintro p offset point point' same preserves ⟨e, found, asks, inside, text⟩
    obtain ⟨f, there, evolves⟩ := preserves e found
    refine ⟨f, there, asks.trans (congrArg some evolves.key.symm),
      inside.trans evolves.size_le, ?_⟩
    obtain ⟨more, stored⟩ := evolves.stored
    rw [same, text, ← stored,
      List.take_append_of_le_length (by rw [e.length_stored]; exact inside)]
  rcases rouse_cases effect.broadcast pc with ⟨p, offset, _, rfl, woken⟩ | ⟨same, _⟩
  · rw [woken]
    exact streams p offset .wait .lockEntry rfl (kept p rfl) serves
  rw [same]
  cases pc with
  | idle => exact Answered.mono serves grows
  | reading buf => exact serves
  | joining request point => exact serves
  | streaming p offset point => exact streams p offset point point rfl (kept p rfl) serves
  | fetching request p total alive point =>
      obtain ⟨asks, e, found, fetches⟩ := serves
      obtain ⟨f, there, evolves⟩ := kept p rfl e found
      obtain ⟨calm, unchanged⟩ := quiet p rfl
      refine ⟨asks, f, there, ?_⟩
      rw [unchanged]
      have stored := (evolves.quiet calm).1
      cases point <;> simpa only [Fetches, Fetches.Ends, stored] using fetches
  | releasing p amWriter point => exact Answered.mono serves grows

namespace Traffic

variable {ι : Type*} {s next : Traffic ι} {i : ι} {answers : Answers}

/-- What has gone through all sockets. -/
structure Kept (s : Traffic ι) : Prop where
  serves : ∀ i, Serves s.proxy.table s.origin (s.client i) (s.proxy.pc i)
  cached : ∀ p e, s.proxy.table.heap p = some e → Cached e (s.origin p)
  asked : ∀ p, (s.origin p).Asked
  unused : ∀ p, s.proxy.table.fresh ≤ p → s.origin p = {}

theorem Kept.start : (start ι).Kept where
  serves := fun _ => .of_nil rfl
  cached := fun _ _ there => by cases there
  asked := fun _ come => absurd rfl come
  unused := fun _ _ => rfl

variable [Fintype ι]

/-- A step of the worker itself. -/
theorem Kept.serves_self (kept : s.Kept) (here : s.proxy.Local) (sound : Sound s.proxy.view)
    (takes : answers.send ≠ .took 0) {effect : Effect}
    (moved : advance s.proxy.table answers (s.proxy.pc i) = some effect) :
    Serves effect.table (connections s.origin answers (s.proxy.pc i))
      ((s.client i).after answers (s.proxy.pc i) effect.pc) effect.pc := by
  have serves := kept.serves i
  cases place : s.proxy.pc i with
  | idle =>
      rw [place] at moved
      exact Option.some.inj moved ▸ rfl
  | reading buf =>
      rw [place] at moved serves
      rcases stepRead_cases moved with rfl | ⟨more, rfl⟩ | ⟨request, rfl⟩
      · exact .of_nil serves
      · exact serves
      · exact ⟨rfl, serves⟩
  | joining request point =>
      have known := here.asserts i
      rw [place] at moved serves known
      obtain ⟨asks, sent⟩ := serves
      cases point with
      | lockTable => exact Option.some.inj moved ▸ ⟨asks, sent⟩
      | search =>
          simp only [advance, stepJoin] at moved
          split at moved
          · cases moved
          · obtain rfl := Option.some.inj moved
            refine afterJoin_serves asks sent fun p writer => ?_
            obtain ⟨rfl, empty⟩ := startNew_writer writer
            exact ⟨kept.unused _ le_rfl, empty⟩
          · exact Option.some.inj moved ▸ ⟨asks, sent⟩
      | lockEntry p => exact Option.some.inj moved ▸ ⟨asks, sent⟩
      | readFailed p =>
          obtain ⟨e, found, rfl⟩ := Option.map_eq_some_iff.mp moved
          exact ⟨asks, sent⟩
      | decide p isFailed =>
          obtain ⟨result, decided, rfl⟩ := Option.map_eq_some_iff.mp moved
          obtain ⟨_, _, _, joins⟩ := here.decideFound_eq sound place answers.create
          obtain rfl := Option.some.inj (joins.symm.trans decided)
          exact afterJoin_serves asks sent fun q writer => by simp at writer
      | logHit p =>
          obtain ⟨e, found, key⟩ := known
          obtain rfl := Option.some.inj moved
          refine ⟨e, found, ?_, Nat.zero_le _, ?_⟩
          · change (s.client i).request.map Request.key = _
            rw [asks, Option.map_some, key]
          · change (s.client i).sent ++ [] = _
            rw [sent, List.take_zero, List.append_nil]
  | streaming p offset point =>
      rw [place] at moved serves
      exact stepStream_serves takes (kept.cached p) (kept.asked p) serves moved
  | fetching request p total alive point =>
      rw [place] at moved serves
      obtain ⟨asks, e, found, fetches⟩ := serves
      exact stepFetch_serves takes found asks fetches (Function.update_self ..) moved
  | releasing p amWriter point =>
      rw [place] at moved serves
      exact stepRelease_serves serves moved

omit [Fintype ι] in
/-- The connections behind a step. -/
theorem Kept.connections (kept : s.Kept) (answers : Answers) (i : ι) (p : Ptr) :
    (s.origin p).Grows (connections s.origin answers (s.proxy.pc i) p) ∧
      (Proxy.connections s.origin answers (s.proxy.pc i) p).Asked := by
  have serves := kept.serves i
  cases place : s.proxy.pc i with
  | fetching request q total alive point =>
      rw [place] at serves
      obtain ⟨_, e, _, fetches⟩ := serves
      simp only [Proxy.connections]
      by_cases same : p = q
      · subst same
        rw [Function.update_self]
        obtain ⟨grows, asked, _⟩ := fetches.connection (kept.asked p) answers
        exact ⟨grows, asked⟩
      · rw [Function.update_of_ne same]
        exact ⟨.refl _, kept.asked p⟩
  | _ => exact ⟨.refl _, kept.asked p⟩

/-- Only the writer of an entry uses its connection. -/
theorem connections_of_ne {origin : Ptr → Connection} {answers : Answers} {pc : Pc} {p : Ptr}
    (other : ∀ request total alive point, pc ≠ .fetching request p total alive point) :
    Proxy.connections origin answers pc p = origin p := by
  cases pc with
  | fetching request q total alive point =>
      refine Function.update_of_ne ?_ _ _
      rintro rfl
      exact other request total alive point rfl
  | _ => rfl

/-- Every step keeps the record. -/
theorem Kept.serves_step (kept : s.Kept) (here : s.proxy.Local) (sound : Sound s.proxy.view)
    (takes : answers.send ≠ .took 0) [DecidableEq ι] {effect : Effect}
    (moved : advance s.proxy.table answers (s.proxy.pc i) = some effect) (j : ι) :
    Serves effect.table (Proxy.connections s.origin answers (s.proxy.pc i))
      (Function.update s.client i
        ((s.client i).after answers (s.proxy.pc i) effect.pc) j)
      ((s.proxy.apply i effect).pc j) := by
  by_cases same : j = i
  · subst same
    rw [Function.update_self, World.apply_pc_self]
    exact kept.serves_self here sound takes moved
  rw [Function.update_of_ne same, World.apply_pc_of_ne s.proxy effect same]
  refine (kept.serves j).stable (fun q => (kept.connections answers i q).1) (fun q holds => ?_)
    fun q writes => ?_
  · refine (advance_touches moved).preserves here.linked.bounded fun frees => ?_
    exact here.not_concerns_of_destroys sound frees j (.inl ((held_role _).trans holds))
  · -- the entry of a writer has no other writer
    have alone : ∀ request total alive point,
        s.proxy.pc i ≠ .fetching request q total alive point := by
      intro request total alive point place
      have also : (s.proxy.view.role i).writes = some q :=
        (writes_role _).trans (congrArg writing place)
      exact same (sound.marking.writer_unique j i q ((writes_role _).trans writes) also)
    refine ⟨fun loud => ?_, connections_of_ne alone⟩
    obtain ⟨request, total, alive, point, place⟩ :=
      fetching_of_role ((advance_touches moved).of_broadcast loud)
    exact alone request total alive point place

/-- What is stored behind a step came from the connection of its entry. -/
theorem Kept.cached_step (kept : s.Kept) (here : s.proxy.Local) (sound : Sound s.proxy.view)
    {effect : Effect} (moved : advance s.proxy.table answers (s.proxy.pc i) = some effect)
    (destroyed : ∀ q, destroys s.proxy.table (s.proxy.pc i) = some q → effect.table.heap q = none)
    {p : Ptr} {f : CacheEntry} (after : effect.table.heap p = some f) :
    Cached f (Proxy.connections s.origin answers (s.proxy.pc i) p) := by
  have touches := advance_touches moved
  have frees : destroys s.proxy.table (s.proxy.pc i) ≠ some p := by
    intro frees
    rw [destroyed p frees] at after
    cases after
  by_cases fetches : ∃ request total alive point,
      s.proxy.pc i = .fetching request p total alive point
  · obtain ⟨request, total, alive, point, place⟩ := fetches
    have serves := kept.serves i
    have known := here.asserts i
    rw [place] at moved serves known
    obtain ⟨_, e, found, fetches⟩ := serves
    obtain ⟨e', found', key⟩ := known
    obtain rfl := Option.some.inj (found.symm.trans found')
    have unmarked : e.complete = false := by
      have works : (s.proxy.view.role i = .producer p) ∨ s.proxy.view.role i = .quitter p := by
        change role (s.proxy.pc i) = _ ∨ role (s.proxy.pc i) = _
        rw [place]
        exact role_fetching request p total alive point
      rcases works with was | was
      · exact (sound.marking.producer_clean i p (item e) was (World.view_item found)).1
      · exact sound.marking.quitter_clean i p (item e) was (World.view_item found)
    rw [place]
    simp only [Proxy.connections, Function.update_self]
    exact stepFetch_cached found key (kept.cached p e found) (kept.asked p) unmarked fetches moved
      after
  · push Not at fetches
    rw [connections_of_ne fetches]
    cases before : s.proxy.table.heap p with
    | some e =>
        obtain ⟨f', there, evolves⟩ := touches.preserves here.linked.bounded frees e before
        obtain rfl := Option.some.inj (there.symm.trans after)
        have quiet : effect.broadcast ≠ some p := by
          intro loud
          obtain ⟨request, total, alive, point, place⟩ :=
            fetching_of_role (touches.of_broadcast loud)
          exact fetches request total alive point place
        obtain ⟨stored, complete, _⟩ := evolves.quiet quiet
        have cached := kept.cached p e before
        refine ⟨stored ▸ cached.front, fun done => ?_, fun request opened => ?_⟩
        · rw [stored, evolves.key]
          exact cached.whole (complete ▸ done)
        · exact (cached.key request opened).trans evolves.key.symm
    | none =>
        have newest : p = s.proxy.table.fresh ∧ f.complete = false := by
          rcases touches.descends.born p f after with ⟨e, there⟩ | newest
          · rw [before] at there
            cases there
          · exact newest
        have unused := kept.unused p newest.1.ge
        refine ⟨?_, fun done => absurd (newest.2.symm.trans done) (by decide),
          fun request opened => ?_⟩
        · rw [touches.born_empty before after]
          exact List.nil_prefix
        · rw [unused] at opened
          cases opened

variable [DecidableEq ι]

/-- **Every step keeps the record**, if `send` takes what it is given. -/
theorem Kept.step (kept : s.Kept) (here : s.proxy.Local) (sound : Sound s.proxy.view)
    (takes : s.SendTakes (i, answers)) (stepped : s.step (i, answers) = some next) :
    next.Kept ∧ s.proxy.step (i, answers) = some next.proxy := by
  obtain ⟨proxy, walked, rfl⟩ := Option.map_eq_some_iff.mp stepped
  refine ⟨?_, walked⟩
  have destroyed : ∀ q, destroys s.proxy.table (s.proxy.pc i) = some q →
      proxy.table.heap q = none := fun q frees => (here.destroyed sound frees walked).2
  obtain ⟨effect, moved, _, rfl⟩ := World.step_eq_some_iff.mp walked
  constructor
  · intro j
    have own : (s.proxy.apply i effect).pc i = effect.pc := World.apply_pc_self ..
    simp only [own]
    exact kept.serves_step here sound takes moved j
  · exact fun p f after => kept.cached_step here sound moved destroyed after
  · exact fun p => (kept.connections answers i p).2
  · intro p newer
    have older : s.proxy.table.fresh ≤ p := (advance_touches moved).descends.fresh.trans newer
    refine (connections_of_ne fun request total alive point place => ?_).trans (kept.unused p older)
    have serves := kept.serves i
    rw [place] at serves
    obtain ⟨_, e, found, _⟩ := serves
    rw [here.linked.bounded p older] at found
    cases found

/-- The record of a reachable state, with the invariants of the proxy. -/
theorem kept_of_reaches (reached : Transition.ReachesBy step SendTakes (start ι) s) :
    s.Kept ∧ s.proxy.Local ∧ Sound s.proxy.view := by
  refine reached.invariant
    (motive := fun s : Traffic ι => s.Kept ∧ s.proxy.Local ∧ Sound s.proxy.view)
    ⟨Kept.start, .start, World.sound_start⟩ ?_
  rintro v ⟨j, answers⟩ after ⟨kept, here, sound⟩ takes stepped
  obtain ⟨still, walked⟩ := kept.step here sound takes stepped
  obtain ⟨local', sound'⟩ := here.step_sound sound walked
  exact ⟨still, local', sound'⟩

end Traffic

end OperationSystems.Proxy
