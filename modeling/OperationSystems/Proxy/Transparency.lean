import OperationSystems.Proxy.EmptyAnswers
import OperationSystems.Proxy.Traffic

/-!
# A client gets one origin's answer

What a worker has sent to its client is, at every moment, part of what one connection
delivered that was opened for the client's key, or part of the 502 answer; where the
worker comes to its release over an answer that counts as complete and the client took
everything, it is all of it. An entry that counts as complete is there for good: later
clients of the key get the same bytes, and no connection is opened for it any more.
-/

namespace OperationSystems.Proxy

open CStrings Cache SharedRegistry

/-- A writer has stored only what has come. -/
theorem Fetches.answered {origin : Ptr → Connection} {p : Ptr} {e : CacheEntry} {x : Exchange}
    {request : Request} {alive : Bool} {point : FetchPoint} (asks : x.request = some request)
    (fetches : Fetches e (origin p) request x.sent alive point) : Answered origin x := by
  have received : ∀ come, Receives (origin p) request come → x.sent <+: come →
      Answered origin x := fun come receives front => by
    refine .inr ⟨request, p, asks, request, receives.opened, rfl, receives.whole, ?_⟩
    rw [receives.delivered]
    exact front
  cases point with
  | connect => exact .of_nil fetches.2.2
  | badGateway left => exact .inl ⟨left, fetches.2.2⟩
  | sendRequest left => exact .of_nil fetches.2.2.2.2
  | recv => exact received _ fetches.1 fetches.2.front
  | lockAppend block =>
      exact received _ fetches.1 (fetches.2.front.trans (List.prefix_append _ _))
  | append block =>
      exact received _ fetches.1 (fetches.2.front.trans (List.prefix_append _ _))
  | relay left => exact received _ fetches.1 ⟨left, fetches.2⟩
  | lockMark complete => exact fetches.1.imp id fun whole => ⟨request, p, asks, whole⟩
  | mark complete => exact fetches.1.imp id fun whole => ⟨request, p, asks, whole⟩

namespace Traffic

variable {ι : Type*} {s later next : Traffic ι} {i : ι} {answers : Answers}

/-- Every client is answered by one connection. -/
theorem Kept.answered (kept : s.Kept) (i : ι) : Answered s.origin (s.client i) := by
  have serves := kept.serves i
  cases place : s.proxy.pc i with
  | idle =>
      rw [place] at serves
      exact serves
  | reading buf =>
      rw [place] at serves
      exact .of_nil serves
  | joining request point =>
      rw [place] at serves
      exact .of_nil serves.2
  | streaming p offset point =>
      rw [place] at serves
      obtain ⟨e, found, asks, _, text⟩ := serves
      have front : (s.client i).sent <+: e.stored :=
        List.IsPrefix.trans ⟨_, text⟩ (List.take_prefix _ _)
      exact (kept.cached p e found).answered (kept.asked p) asks front
  | fetching request p total alive point =>
      rw [place] at serves
      obtain ⟨asks, e, _, fetches⟩ := serves
      exact fetches.answered asks
  | releasing p amWriter point =>
      rw [place] at serves
      exact serves

/-- A connection that was asked the whole of one request with the key of the client has
delivered what the client was sent, and nothing else. -/
def FullyAnswered (s : Traffic ι) (i : ι) (p : Ptr) : Prop :=
  (s.client i).sent = (s.origin p).delivered ∧
    ∃ request, (s.client i).request = some request ∧ (s.origin p).AskedFor request.key

/-- A reader that finishes has sent everything that was delivered for its key. -/
theorem Kept.finished (kept : s.Kept) {p : Ptr} {offset : Nat} {e : CacheEntry}
    (place : s.proxy.pc i = .streaming p offset .pass) (found : s.proxy.table.heap p = some e)
    (passed : streamPass e offset = .finished) : s.FullyAnswered i p := by
  have serves := kept.serves i
  rw [place] at serves
  obtain ⟨old, there, asks, _, text⟩ := serves
  obtain rfl := Option.some.inj (found.symm.trans there)
  obtain ⟨atEnd, done, _⟩ := streamPass_finished passed
  have all : (s.client i).sent = e.stored := by
    have sent : (s.client i).sent ++ [] = e.stored.take offset := text
    rw [List.append_nil] at sent
    rw [sent, List.take_of_length_le (by rw [e.length_stored, atEnd])]
  obtain ⟨askedFor, delivered⟩ := (kept.cached p e found).whole done
  obtain ⟨request, asking, key⟩ := Option.map_eq_some_iff.mp asks
  exact ⟨all.trans delivered, request, asking, key ▸ askedFor⟩

/-- A writer whose client took everything has sent everything that was delivered for its
key. -/
theorem Kept.relayed (kept : s.Kept) {request : Request} {p : Ptr} {total : Nat}
    (place : s.proxy.pc i = .fetching request p total true (.mark true)) :
    s.FullyAnswered i p := by
  have serves := kept.serves i
  rw [place] at serves
  obtain ⟨asks, e, _, _, _, whole⟩ := serves
  obtain ⟨askedFor, delivered, sent⟩ := whole rfl
  exact ⟨(sent rfl).trans delivered.symm, request, asks, askedFor⟩

variable [DecidableEq ι] [Fintype ι]

/-- **A client gets the answer of one connection for its key.** In every state that any
interleaving of any number of workers reaches, if `send` takes what it is given: what a
client was sent is part of the 502 answer or part of what one connection delivered, in
answer to one whole request with the client's key; and a reader that finishes, and a
writer that marks its entry complete for a client that took everything, has sent all that
the connection of its entry delivered, which was asked one whole request with that key. -/
theorem client_gets_one_answer (reached : Transition.ReachesBy step SendTakes (start ι) s)
    (i : ι) :
    ((s.client i).sent <+: badGatewayText ∨ ∃ request p asked,
      (s.client i).request = some request ∧ (s.origin p).request = some asked ∧
        asked.key = request.key ∧ (s.origin p).asked = asked.originText ∧
          (s.client i).sent <+: (s.origin p).delivered) ∧
    (∀ p offset e, s.proxy.pc i = .streaming p offset .pass → s.proxy.table.heap p = some e →
      streamPass e offset = .finished → s.FullyAnswered i p) ∧
    ∀ request p total, s.proxy.pc i = .fetching request p total true (.mark true) →
      s.FullyAnswered i p := by
  obtain ⟨kept, here, sound⟩ := kept_of_reaches reached
  refine ⟨?_, fun p offset e => kept.finished, fun request p total => kept.relayed⟩
  rcases kept.answered i with front | ⟨request, p, asks, asked, opened, key, whole, front⟩
  · exact .inl front
  · exact .inr ⟨request, p, asked, asks, opened, key, whole, front⟩

omit [DecidableEq ι] [Fintype ι] in
/-- The labels of a run whose `send` calls take what they are given. -/
theorem sendTakes_of_label {label : ι × Answers}
    (takes : (match label.2.send with | .took 0 => false | _ => true) = true) (v : Traffic ι) :
    v.SendTakes label := by
  intro same
  simp [same] at takes

/-- A run of a client whose origin sends one byte, up to the mark. -/
def oneByteFetch : List (Bool × Answers) :=
  List.replicate 4 (true, refusal) ++ List.replicate 2 (true, closing) ++
    List.replicate 4 (true, World.oneByte) ++ [(true, closing), (true, closing)]

theorem oneByteFetch_takes (label : Bool × Answers) (member : label ∈ oneByteFetch)
    (v : Traffic Bool) : v.SendTakes label := by
  apply sendTakes_of_label
  have all : (oneByteFetch.all fun label =>
      match label.2.send with | .took 0 => false | _ => true) = true := by decide +kernel
  exact List.all_eq_true.mp all label member

/-- The theorem at a fetch of one byte. -/
theorem client_gets_one_answer_run :
    ∃ s : Traffic Bool, Transition.ReachesBy step SendTakes (start Bool) s ∧
      (s.client true).sent = [120] ∧ (s.origin 0).delivered = [120] ∧
      s.FullyAnswered true 0 := by
  have places : (Transition.run step (start Bool) oneByteFetch).map (fun s =>
      (s.proxy.pc true, (s.client true).sent, (s.origin 0).delivered)) =
        some (.fetching sampleRequest 0 1 true (.mark true), [120], [120]) := by decide +kernel
  obtain ⟨s, ran, seen⟩ := Option.map_eq_some_iff.mp places
  simp only [Prod.mk.injEq] at seen
  obtain ⟨place, sent, delivered⟩ := seen
  have reached : Transition.ReachesBy step SendTakes (start Bool) s :=
    .of_run ran oneByteFetch_takes .start
  exact ⟨s, reached, sent, delivered,
    (client_gets_one_answer reached true).2.2 sampleRequest 0 1 place⟩

/-! ## Complete answers stay -/

/-- An entry that counts as complete, with what it stores. -/
structure Final (s : Traffic ι) (p : Ptr) (key : CString) (text : List UInt8) : Prop where
  good : Good s.proxy.view p key
  stored : ∃ e, s.proxy.table.heap p = some e ∧ e.complete = true ∧ e.stored = text

omit [DecidableEq ι] [Fintype ι] in
/-- A linked entry that is complete and has not failed is final. -/
theorem Final.of_complete {p : Ptr} {e : CacheEntry} (member : s.proxy.table.Linked p)
    (found : s.proxy.table.heap p = some e) (complete : e.complete = true)
    (sane : e.failed = false) : s.Final p e.key e.stored :=
  ⟨⟨member, item e, World.view_item found, rfl, complete, sane⟩, e, found, complete, rfl⟩

/-- No step changes such an entry. -/
theorem Final.step {p : Ptr} {key : CString} {text : List UInt8} (final : s.Final p key text)
    (here : s.proxy.Local) (sound : Sound s.proxy.view)
    (stepped : s.step (i, answers) = some next) : next.Final p key text := by
  obtain ⟨proxy, walked, rfl⟩ := Option.map_eq_some_iff.mp stepped
  obtain ⟨good, e, found, complete, stored⟩ := final
  refine ⟨here.good_step sound walked good, ?_⟩
  obtain ⟨effect, moved, _, rfl⟩ := World.step_eq_some_iff.mp walked
  have kept : Preserves s.proxy.table effect p := by
    refine (advance_touches moved).preserves here.linked.bounded fun frees => ?_
    exact (sound.listing.reclaiming_out i p (here.reclaiming_of_destroys sound frees)).1 good.1
  obtain ⟨f, there, evolves⟩ := kept e found
  refine ⟨f, there, evolves.complete complete, (evolves.quiet fun loud => ?_).1.trans stored⟩
  -- a worker that broadcasts on an entry has not marked it yet
  have unmarked : e.complete = false := by
    rcases (advance_touches moved).of_broadcast loud with was | was
    · exact (sound.marking.producer_clean i p (item e) was (World.view_item found)).1
    · exact sound.marking.quitter_clean i p (item e) was (World.view_item found)
  exact absurd (unmarked.symm.trans complete) (by decide)

/-- It stays so along a run. -/
theorem Final.reaches {p : Ptr} {key : CString} {text : List UInt8} (final : s.Final p key text)
    (here : s.proxy.Local) (sound : Sound s.proxy.view)
    (reached : Transition.ReachesBy Traffic.step SendTakes s later) : later.Final p key text := by
  refine (reached.invariant (motive := fun v : Traffic ι =>
    v.Final p key text ∧ v.proxy.Local ∧ Sound v.proxy.view) ⟨final, here, sound⟩ ?_).1
  rintro v ⟨j, answers⟩ after ⟨final, here, sound⟩ _ stepped
  obtain ⟨proxy, walked, same⟩ := Option.map_eq_some_iff.mp stepped
  have proceeds := here.step_sound sound walked
  have still := final.step here sound stepped
  subst same
  exact ⟨still, proceeds⟩

/-- **A complete answer is served for good.** Once a linked entry counts as complete and
has not failed, in every later state it is linked and stores the same bytes, which are
all that its connection delivered; a lookup of its key finds it; and a reader that
finishes on it has sent exactly these bytes. -/
theorem complete_answer_permanent
    (reached : Transition.ReachesBy step SendTakes (start ι) s) {p : Ptr} {e : CacheEntry}
    (member : s.proxy.table.Linked p) (found : s.proxy.table.heap p = some e)
    (complete : e.complete = true) (sane : e.failed = false)
    (onwards : Transition.ReachesBy step SendTakes s later) :
    later.proxy.table.Linked p ∧ (later.origin p).delivered = e.stored ∧
    (∃ f, later.proxy.table.heap p = some f ∧ f.key = e.key ∧ f.stored = e.stored ∧
      f.complete = true ∧ f.failed = false) ∧
    (∀ i request answers next, later.proxy.pc i = .joining request .search →
      request.key = e.key → later.step (i, answers) = some next →
        next.proxy.pc i = .joining request (.lockEntry p)) ∧
    ∀ i offset f, later.proxy.pc i = .streaming p offset .pass →
      later.proxy.table.heap p = some f → streamPass f offset = .finished →
        (later.client i).sent = e.stored := by
  obtain ⟨_, here, sound⟩ := kept_of_reaches reached
  obtain ⟨kept, here', sound'⟩ := kept_of_reaches (reached.trans onwards)
  obtain ⟨⟨linked, it, viewed, key, _, clean⟩, f, there, done, stored⟩ :=
    (Final.of_complete member found complete sane).reaches here sound onwards
  obtain ⟨f', there', same⟩ := Option.map_eq_some_iff.mp viewed
  obtain rfl := Option.some.inj (there.symm.trans there')
  subst same
  have delivered : (later.origin p).delivered = e.stored :=
    ((kept.cached p f there).whole done).2.symm.trans stored
  refine ⟨linked, delivered, ⟨f, there, key, stored, done, clean⟩, ?_, ?_⟩
  · intro i request answers next place same stepped
    obtain ⟨proxy, walked, rfl⟩ := Option.map_eq_some_iff.mp stepped
    obtain ⟨effect, moved, _, rfl⟩ := World.step_eq_some_iff.mp walked
    rw [place] at moved
    rw [World.apply_pc_self]
    rcases here'.linked.scan_eq request.key with ⟨q, g, searched, inside, hit, named⟩ |
      ⟨_, absent⟩
    · have equal : q = p := here'.linked.distinct q p inside linked g f hit there
        (named.trans (same.trans key.symm))
      simp only [advance, stepJoin, searched] at moved
      rw [← Option.some.inj moved, equal]
    · exact absurd (key.trans same.symm) (absent p linked f there)
  · intro i offset g place hit finished
    exact (kept.finished place hit finished).1.trans delivered

/-- A second client that reads the entry of the first one to its end. -/
def oneByteRead : List (Bool × Answers) :=
  List.replicate 2 (false, refusal) ++ List.replicate 10 (false, closing)

theorem oneByteRead_takes (label : Bool × Answers) (member : label ∈ oneByteRead)
    (v : Traffic Bool) : v.SendTakes label := by
  apply sendTakes_of_label
  have all : (oneByteRead.all fun label =>
      match label.2.send with | .took 0 => false | _ => true) = true := by decide +kernel
  exact List.all_eq_true.mp all label member

/-- The theorem at the entry of one byte, which a second client then reads. -/
theorem complete_answer_permanent_run :
    ∃ (s later : Traffic Bool) (e : CacheEntry),
      Transition.ReachesBy step SendTakes (start Bool) s ∧
      Transition.ReachesBy step SendTakes s later ∧ s.proxy.table.heap 0 = some e ∧
      later.proxy.pc false = .streaming 0 1 .pass ∧ (later.client false).sent = e.stored := by
  have places : ((Transition.run step (start Bool) (oneByteFetch ++ [(true, closing)])).bind
      fun s => (Transition.run step s oneByteRead).bind fun later =>
        (s.proxy.table.heap 0).map fun e =>
          (later.proxy.pc false, (e.size, e.complete, e.failed),
            decide (0 ∈ s.proxy.table.chain (s.proxy.table.index sampleRequest.key) ∧
              s.proxy.table.index sampleRequest.key < s.proxy.table.nbuckets))) =
      some (.streaming 0 1 .pass, (1, true, false), true) := by decide +kernel
  obtain ⟨s, ran, places⟩ := Option.bind_eq_some_iff.mp places
  obtain ⟨later, ran', places⟩ := Option.bind_eq_some_iff.mp places
  obtain ⟨e, found, places⟩ := Option.map_eq_some_iff.mp places
  simp only [Prod.mk.injEq, decide_eq_true_eq] at places
  obtain ⟨place, ⟨size, complete, sane⟩, member, below⟩ := places
  have reached : Transition.ReachesBy step SendTakes (start Bool) s := by
    refine .of_run ran (fun label inside v => ?_) .start
    rcases List.mem_append.mp inside with inside | last
    · exact oneByteFetch_takes label inside v
    · rw [List.mem_singleton.mp last]
      exact sendTakes_of_label rfl v
  have onwards : Transition.ReachesBy step SendTakes s later :=
    .of_run ran' oneByteRead_takes .start
  obtain ⟨_, _, ⟨f, there, _, stored, done, clean⟩, _, reads⟩ :=
    complete_answer_permanent reached ⟨_, below, member⟩ found complete sane onwards
  have whole : f.size = 1 := by
    rw [← f.length_stored, stored, e.length_stored, size]
  have finished : streamPass f 1 = .finished := by
    simp [streamPass, whole, done, clean]
  exact ⟨s, later, e, reached, onwards, found, place, reads false 1 f place there finished⟩

end Traffic

end OperationSystems.Proxy
