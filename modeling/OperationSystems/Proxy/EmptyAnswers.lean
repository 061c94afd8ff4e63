import OperationSystems.Proxy.SingleFlight

/-!
# Empty answers

What the writer has counted in `total_from_origin` is what the entry stores, so every
way to end a fetch that looks at the count marks an entry without a byte failed. The
one that does not look is the orderly close of the connection: as long as no origin
closes before its first byte, no empty entry is kept.
-/

namespace OperationSystems.Proxy

open CStrings Cache SharedRegistry

/-- What a writer has counted of what its entry stores. -/
def Filled (e : CacheEntry) (total : Nat) : FetchPoint → Prop
  | .connect => total = e.size
  | .badGateway _ => total = e.size
  | .sendRequest _ => total = e.size
  | .recv => total = e.size
  | .lockAppend block => total = e.size + block.bytes.length
  | .append block => total = e.size + block.bytes.length
  | .relay _ => total = e.size
  | .lockMark complete => complete = true → 0 < e.size
  | .mark complete => complete = true → 0 < e.size

theorem Filled.of_size {e f : CacheEntry} {total : Nat} {point : FetchPoint}
    (filled : Filled e total point) (same : f.size = e.size) : Filled f total point := by
  cases point <;> simpa only [Filled, same] using filled

/-- Every writer counts right. -/
def Counts (t : CacheTable) : Pc → Prop
  | .fetching _ p total _ point => ∃ e, t.heap p = some e ∧ Filled e total point
  | _ => True

/-- An append adds the length of its block to the size, or it fails. -/
theorem cacheAppendData_size (e : CacheEntry) (block : Block) (answer : ReallocAnswer) :
    (cacheAppendData e (some block) answer).1 ≠ 0 ∨
      (cacheAppendData e (some block) answer).2.size = e.size + block.bytes.length := by
  rcases cacheAppendData_spec e (some block) answer with ⟨next, ran, appended, _⟩ | ⟨ran, _⟩
  · right
    rw [ran, ← next.length_stored, appended.stored, List.length_append, e.length_stored]
    rfl
  · left
    rw [ran]
    exact (by decide : (-1 : Int) ≠ 0)

/-- A writer goes on counting right, if no origin closes before its first byte. -/
theorem stepFetch_counts {t : CacheTable} {request : Request} {p : Ptr} {total : Nat}
    {alive : Bool} {answers : Answers} {point : FetchPoint} {effect : Effect} {e : CacheEntry}
    (found : t.heap p = some e) (filled : Filled e total point)
    (speaks : point = .recv → total = 0 → answers.recv ≠ .closed)
    (moved : stepFetch t request p total alive answers point = some effect) :
    Counts effect.table effect.pc := by
  cases point with
  | connect =>
      obtain rfl := Option.some.inj moved
      refine ⟨e, found, ?_⟩
      cases answers.connect with
      | false => exact filled
      | true =>
          cases request.originRequest with
          | none => exact fun complete => by cases complete
          | some req => exact filled
  | badGateway left =>
      obtain rfl := Option.some.inj moved
      refine ⟨e, found, ?_⟩
      cases sendAll left answers.send with
      | sending left => exact filled
      | returned => exact fun complete => by cases complete
      | error => exact fun complete => by cases complete
  | sendRequest left =>
      obtain rfl := Option.some.inj moved
      refine ⟨e, found, ?_⟩
      cases sendAll left answers.send with
      | sending left => exact filled
      | returned => exact filled
      | error => exact fun complete => by cases complete
  | recv =>
      have counted : total = e.size := filled
      simp only [stepFetch] at moved
      split at moved
      · obtain rfl := Option.some.inj moved
        exact ⟨e, found, filled⟩
      · obtain rfl := Option.some.inj moved
        exact ⟨e, found, fun complete => counted ▸ of_decide_eq_true complete⟩
      · obtain rfl := Option.some.inj moved
        exact ⟨e, found, fun complete => by cases complete⟩
      · rename_i closed
        obtain rfl := Option.some.inj moved
        have some : total ≠ 0 := fun zero => speaks rfl zero closed
        exact ⟨e, found, fun _ => counted ▸ Nat.pos_of_ne_zero some⟩
      · obtain ⟨block, given, rfl⟩ := Option.map_eq_some_iff.mp moved
        refine ⟨e, found, ?_⟩
        rw [Filled, counted, sizeAdd_eq e.size_le block.bounded]
  | lockAppend block =>
      obtain rfl := Option.some.inj moved
      exact ⟨e, found, filled⟩
  | append block =>
      have counted : total = e.size + block.bytes.length := filled
      obtain ⟨old, there, rfl⟩ := Option.map_eq_some_iff.mp moved
      obtain rfl := Option.some.inj (found.symm.trans there)
      refine ⟨(cacheAppendData e (some block) answers.realloc).2,
        by simp [CacheTable.modify, found], ?_⟩
      have grown := (cacheAppendData_size e block answers.realloc).resolve_left
      split_ifs with failed relays
      · exact fun complete => by cases complete
      · exact counted.trans (grown failed).symm
      · exact counted.trans (grown failed).symm
  | relay left =>
      obtain rfl := Option.some.inj moved
      cases sendAll left answers.send with
      | sending left => exact ⟨e, found, filled⟩
      | returned => exact ⟨e, found, filled⟩
      | error => exact ⟨e, found, filled⟩
  | lockMark complete =>
      obtain rfl := Option.some.inj moved
      exact ⟨e, found, filled⟩
  | mark complete =>
      obtain ⟨old, there, rfl⟩ := Option.map_eq_some_iff.mp moved
      trivial

/-- An entry becomes complete only when its writer marks it so. -/
theorem Touches.completes {t : CacheTable} {pc : Pc} {effect : Effect} {q : Ptr}
    {e f : CacheEntry} (touches : Touches t pc effect) (loud : effect.broadcast = some q)
    (before : t.heap q = some e) (after : effect.table.heap q = some f)
    (unmarked : e.complete = false) (done : f.complete = true) :
    ∃ request total alive, pc = .fetching request q total alive (.mark true) := by
  cases touches with
  | nothing same quiet => simp [quiet] at loud
  | create request answer => cases loud
  | decide request p isFailed answer result decided => cases loud
  | append request p total alive block old answer found changed shouts =>
      rw [shouts] at loud
      split_ifs at loud
      obtain rfl := Option.some.inj loud
      obtain rfl : (cacheAppendData e (some block) answer).2 = f := by
        simpa [changed, CacheTable.modify, before] using after
      rw [(cacheAppendData_frame e (some block) answer).2.1, unmarked] at done
      cases done
  | mark request p total alive complete changed shouts =>
      obtain rfl := Option.some.inj (shouts.symm.trans loud)
      cases complete with
      | true => exact ⟨request, total, alive, rfl⟩
      | false =>
          obtain rfl : cacheMarkFailed e = f := by
            simpa [changed, CacheTable.modify, before] using after
          exact absurd (done.symm.trans unmarked) (by decide)
  | decrement p amWriter changed quiet => simp [quiet] at loud
  | unlink p amWriter old found unlinked quiet => simp [quiet] at loud
  | destroy p amWriter changed quiet => simp [quiet] at loud

/-- A handler that does not become a writer has nothing to count. -/
theorem stepStream_counts {t : CacheTable} {p : Ptr} {offset : Nat} {answers : Answers}
    {point : StreamPoint} {effect : Effect}
    (moved : stepStream t p offset answers point = some effect) :
    Counts effect.table effect.pc := by
  cases point with
  | lockEntry => exact Option.some.inj moved ▸ trivial
  | pass =>
      obtain ⟨e, found, rfl⟩ := Option.map_eq_some_iff.mp moved
      cases streamPass e offset with
      | copied chunk next =>
          dsimp only
          cases sendAllStart chunk <;> trivial
      | _ => trivial
  | wait => exact Option.some.inj moved ▸ trivial
  | send left =>
      obtain rfl := Option.some.inj moved
      cases sendAll left answers.send <;> trivial

/-- A handler that releases has nothing to count. -/
theorem stepRelease_counts {t : CacheTable} {p : Ptr} {amWriter : Bool} {point : ReleasePoint}
    {effect : Effect} (moved : stepRelease t p amWriter point = some effect) :
    Counts effect.table effect.pc := by
  cases point with
  | decrement =>
      obtain ⟨e, found, rfl⟩ := Option.map_eq_some_iff.mp moved
      split_ifs <;> trivial
  | readFlags =>
      obtain ⟨e, found, rfl⟩ := Option.map_eq_some_iff.mp moved
      trivial
  | decide keep =>
      cases keep with
      | true => exact Option.some.inj moved ▸ trivial
      | false =>
          obtain ⟨e, found, moved⟩ := Option.bind_eq_some_iff.mp moved
          obtain ⟨t', unlinked, rfl⟩ := Option.map_eq_some_iff.mp moved
          trivial
  | _ => exact Option.some.inj moved ▸ trivial

/-- A new writer starts with nothing counted and nothing stored. -/
theorem startNew_counts (t : CacheTable) (request : Request) (answer : CreateAnswer) :
    Counts (afterJoin request (t.startNew request.key answer)).table
      (afterJoin request (t.startNew request.key answer)).pc := by
  unfold CacheTable.startNew
  split
  · trivial
  · rename_i e created
    obtain rfl := cacheEntryCreate_eq created
    exact ⟨{ freshEntry request.key with next := t.buckets (t.index request.key) },
      by simp [afterJoin, CacheTable.push], rfl⟩

namespace World

variable {ι : Type*} [DecidableEq ι] [Fintype ι] {w next : World ι} {i : ι} {answers : Answers}

/-- Writers count right, and what is complete is not empty. -/
structure Nourished (w : World ι) : Prop where
  counts : ∀ i, Counts w.table (w.pc i)
  complete : ∀ p e, w.table.heap p = some e → e.complete = true → 0 < e.size

/-- The origin does not close the connection before it has sent a byte. -/
def OriginSpeaks (w : World ι) (label : ι × Answers) : Prop := ∀ request p alive,
  w.pc label.1 = .fetching request p 0 alive .recv → label.2.recv ≠ .closed

omit [DecidableEq ι] in
/-- The counts after a step of the worker itself. -/
theorem Nourished.counts_self (nourished : w.Nourished) (here : w.Local) (sound : Sound w.view)
    (speaks : w.OriginSpeaks (i, answers)) {effect : Effect}
    (moved : advance w.table answers (w.pc i) = some effect) : Counts effect.table effect.pc := by
  cases place : w.pc i with
  | idle =>
      rw [place] at moved
      exact Option.some.inj moved ▸ trivial
  | reading buf =>
      rw [place] at moved
      rcases stepRead_cases moved with rfl | ⟨more, rfl⟩ | ⟨request, rfl⟩ <;> trivial
  | joining request point =>
      rw [place] at moved
      cases point with
      | search =>
          simp only [advance, stepJoin] at moved
          split at moved
          · cases moved
          · exact Option.some.inj moved ▸ startNew_counts w.table request answers.create
          · exact Option.some.inj moved ▸ trivial
      | readFailed p =>
          obtain ⟨e, found, rfl⟩ := Option.map_eq_some_iff.mp moved
          trivial
      | decide p isFailed =>
          obtain ⟨result, decided, rfl⟩ := Option.map_eq_some_iff.mp moved
          obtain ⟨_, _, _, joins⟩ := here.decideFound_eq sound place answers.create
          obtain rfl := Option.some.inj (joins.symm.trans decided)
          trivial
      | _ => exact Option.some.inj moved ▸ trivial
  | streaming p offset point =>
      rw [place] at moved
      exact stepStream_counts moved
  | fetching request p total alive point =>
      have counted := nourished.counts i
      rw [place] at counted moved
      obtain ⟨e, found, filled⟩ := counted
      refine stepFetch_counts found filled ?_ moved
      rintro rfl rfl
      exact speaks request p alive place
  | releasing p amWriter point =>
      rw [place] at moved
      exact stepRelease_counts moved

omit [DecidableEq ι] in
/-- The counts of a worker after a step of another one. -/
theorem Nourished.counts_other (nourished : w.Nourished) (here : w.Local) (sound : Sound w.view)
    {effect : Effect} (moved : advance w.table answers (w.pc i) = some effect) {j : ι}
    (other : j ≠ i) : Counts effect.table (rouse effect.broadcast (w.pc j)) := by
  have counted := nourished.counts j
  rcases rouse_cases effect.broadcast (w.pc j) with ⟨p, offset, _, _, woken⟩ | ⟨same, _⟩
  · rw [woken]
    trivial
  rw [same]
  cases place : w.pc j with
  | fetching request p total alive point =>
      rw [place] at counted
      obtain ⟨e, found, filled⟩ := counted
      have writes : (w.view.role j).writes = some p :=
        (writes_role (w.pc j)).trans (congrArg writing place)
      have kept : Preserves w.table effect p := by
        refine (advance_touches moved).preserves here.linked.bounded fun frees => ?_
        exact here.not_concerns_of_destroys sound frees j (.inl (Role.held_of_writes writes))
      have quiet : effect.broadcast ≠ some p := by
        intro loud
        have also : (w.view.role i).writes = some p := by
          change (role (w.pc i)).writes = some p
          rcases (advance_touches moved).of_broadcast loud with was | was <;> rw [was] <;> rfl
        exact other (sound.marking.writer_unique j i p writes also)
      obtain ⟨f, there, evolves⟩ := kept e found
      exact ⟨f, there, filled.of_size (evolves.size_eq quiet)⟩
  | _ => trivial

/-- **The step lemma.** No empty answer is marked complete while every origin speaks. -/
theorem Nourished.step (nourished : w.Nourished) (here : w.Local) (sound : Sound w.view)
    (speaks : w.OriginSpeaks (i, answers)) (stepped : w.step (i, answers) = some next) :
    next.Nourished := by
  have destroyed : ∀ p, destroys w.table (w.pc i) = some p → next.table.Destroyed p :=
    fun p frees => here.destroyed sound frees stepped
  obtain ⟨effect, moved, _, rfl⟩ := step_eq_some_iff.mp stepped
  have touches := advance_touches moved
  refine ⟨fun j => ?_, fun q f there done => ?_⟩
  · by_cases same : j = i
    · subst same
      rw [apply_pc_self]
      exact nourished.counts_self here sound speaks moved
    · rw [apply_pc_of_ne w effect same]
      exact nourished.counts_other here sound moved same
  · have kept : destroys w.table (w.pc i) ≠ some q := by
      intro frees
      rw [(destroyed q frees).2] at there
      cases there
    rcases touches.descends.born q f there with ⟨e, before⟩ | ⟨_, unmarked⟩
    · obtain ⟨f', there', evolves⟩ := touches.preserves here.linked.bounded kept e before
      obtain rfl := Option.some.inj (there'.symm.trans there)
      refine lt_of_lt_of_le ?_ evolves.size_le
      cases marked : e.complete with
      | true => exact nourished.complete q e before marked
      | false =>
          have loud : effect.broadcast = some q := by
            by_contra quiet
            exact absurd ((evolves.quiet quiet).2.1.symm.trans done) (by simp [marked])
          obtain ⟨request, total, alive, place⟩ := touches.completes loud before there marked done
          have counted := nourished.counts i
          rw [place] at counted
          obtain ⟨old, found, filled⟩ := counted
          obtain rfl := Option.some.inj (found.symm.trans before)
          exact filled rfl
    · exact absurd (done.symm.trans unmarked) (by decide)

omit [Fintype ι] in
/-- A fetch that ends before a byte came is marked failed, unless the origin closed the
connection. -/
theorem ends_failed_iff {request : Request} {p : Ptr} {alive complete : Bool}
    (place : w.pc i = .fetching request p 0 alive .recv)
    (stepped : w.step (i, answers) = some next)
    (ended : next.pc i = .fetching request p 0 alive (.lockMark complete)) :
    complete = false ↔ w.OriginSpeaks (i, answers) := by
  have speaks : w.OriginSpeaks (i, answers) ↔ answers.recv ≠ .closed :=
    ⟨fun speaks => speaks request p alive place, fun other _ _ _ _ => other⟩
  rw [speaks]
  obtain ⟨effect, moved, _, rfl⟩ := step_eq_some_iff.mp stepped
  rw [apply_pc_self] at ended
  rw [place] at moved
  simp only [advance, stepFetch] at moved
  split at moved
  · obtain rfl := Option.some.inj moved
    simp at ended
  · rename_i reset
    obtain rfl := Option.some.inj moved
    simp only [lt_irrefl, decide_false, Pc.fetching.injEq, FetchPoint.lockMark.injEq, true_and]
      at ended
    simp [← ended, reset]
  · rename_i failed
    obtain rfl := Option.some.inj moved
    simp only [Pc.fetching.injEq, FetchPoint.lockMark.injEq, true_and] at ended
    simp [← ended, failed]
  · rename_i closed
    obtain rfl := Option.some.inj moved
    simp only [Pc.fetching.injEq, FetchPoint.lockMark.injEq, true_and] at ended
    simp [← ended, closed]
  · obtain ⟨block, given, rfl⟩ := Option.map_eq_some_iff.mp moved
    simp at ended

/-- **The cache keeps no empty answer** along runs in which no origin closes the
connection before it has sent a byte: a linked entry that nobody holds, and about which
its last holder is not just deciding, has stored something, and a writer that comes to
`cache_release` with an empty entry has marked it failed. A fetch that ends before a
byte came is marked failed in no other runs. -/
theorem no_empty_answers (reached : Transition.ReachesBy step OriginSpeaks (start ι) w) :
    (∀ p e, w.table.Linked p → w.table.heap p = some e → e.refcnt = 0 →
      (∀ j, role (w.pc j) ≠ .retiring p) → 0 < e.size) ∧
    (∀ j p, w.pc j = .releasing p true .lockTable →
      ∃ e, w.table.heap p = some e ∧ (e.size = 0 → e.failed = true)) ∧
    ∀ j request p alive complete answers next, w.pc j = .fetching request p 0 alive .recv →
      w.step (j, answers) = some next →
      next.pc j = .fetching request p 0 alive (.lockMark complete) →
        (complete = false ↔ w.OriginSpeaks (j, answers)) := by
  obtain ⟨⟨here, sound⟩, nourished⟩ := Local.start.invariant sound_start (motive := Nourished)
    ⟨fun _ => trivial, fun _ _ found => by cases found⟩
    (fun v i answers next here sound nourished speaks stepped =>
      nourished.step here sound speaks stepped) reached
  refine ⟨fun p e member found zero settled => ?_, fun j p place => ?_,
    fun j request p alive complete answers next place stepped ended =>
      ends_failed_iff place stepped ended⟩
  · rcases sound.resting.idle_good p member (item e) (view_item found) zero with
      ⟨j, retiring⟩ | ⟨complete, _⟩
    · exact absurd retiring (settled j)
    · exact nourished.complete p e found complete
  · have was : w.view.role j = .settled p := congrArg role place
    obtain ⟨e, found⟩ := here.linked.allocated
      (sound.listing.held_listed j p (by rw [was]; rfl))
    refine ⟨e, found, fun empty => ?_⟩
    rcases sound.marking.settled_marked j p (item e) was (view_item found) with complete | failed
    · exact absurd (nourished.complete p e found complete) (by omega)
    · exact failed

/-- An origin that sends one byte. -/
def oneByte : Answers := { closing with recv := .bytes [120] }

/-- The theorem at a fetch of one byte that ended complete and was released. -/
theorem no_empty_answers_run :
    ∃ (w : World Bool) (e : CacheEntry), Transition.ReachesBy step OriginSpeaks (start Bool) w ∧
      w.table.Linked 0 ∧ w.table.heap 0 = some e ∧ e.refcnt = 0 ∧ 0 < e.size := by
  have places : ((Transition.run (Transition.guarded step fun w label =>
      match w.pc label.1, label.2.recv with
      | .fetching _ _ 0 _ .recv, .closed => false
      | _, _ => true) (start Bool) (List.replicate 4 (true, refusal) ++
        List.replicate 2 (true, closing) ++ [(true, oneByte)] ++
        List.replicate 12 (true, closing))).bind fun w => (w.table.heap 0).map fun e =>
          (w.pc true, w.pc false, e.refcnt,
            decide (0 ∈ w.table.chain (w.table.index sampleRequest.key) ∧
              w.table.index sampleRequest.key < w.table.nbuckets))) =
      some (.idle, .idle, 0, true) := by decide +kernel
  obtain ⟨w, ran, places⟩ := Option.bind_eq_some_iff.mp places
  obtain ⟨e, found, places⟩ := Option.map_eq_some_iff.mp places
  simp only [Prod.mk.injEq, decide_eq_true_eq] at places
  obtain ⟨first, second, zero, member, below⟩ := places
  have reached : Transition.ReachesBy step OriginSpeaks (start Bool) w := by
    refine .of_guarded ran (fun v label passed => ?_) .start
    intro request p alive place closed
    simp [place, closed] at passed
  have settled : ∀ j, role (w.pc j) ≠ .retiring 0 := by
    rintro (_ | _)
    · simp [second, role]
    · simp [first, role]
  exact ⟨w, e, reached, ⟨_, below, member⟩, found, zero,
    (no_empty_answers reached).1 0 e ⟨_, below, member⟩ found zero settled⟩

/-- An origin that accepts the request and closes the connection leaves an empty entry
that is kept for all later requests. -/
theorem empty_answer_kept :
    ∃ (w : World Bool) (e : CacheEntry), Transition.Reaches step (start Bool) w ∧
      (∀ j, w.pc j = .idle) ∧ w.lock .table = none ∧ w.table.Linked 0 ∧
      w.table.heap 0 = some e ∧ e.refcnt = 0 ∧ e.complete = true ∧ e.size = 0 := by
  have places : ((Transition.run step (start Bool) (List.replicate 4 (true, refusal) ++
      List.replicate 11 (true, closing))).bind fun w => (w.table.heap 0).map fun e =>
        ((w.pc true, w.pc false, w.lock .table),
          decide (0 ∈ w.table.chain (w.table.index sampleRequest.key) ∧
            w.table.index sampleRequest.key < w.table.nbuckets),
          (e.refcnt, e.complete, e.size))) =
      some ((.idle, .idle, none), true, (0, true, 0)) := by decide +kernel
  obtain ⟨w, ran, places⟩ := Option.bind_eq_some_iff.mp places
  obtain ⟨e, found, places⟩ := Option.map_eq_some_iff.mp places
  simp only [Prod.mk.injEq, decide_eq_true_eq] at places
  obtain ⟨⟨first, second, free⟩, ⟨member, below⟩, zero, complete, empty⟩ := places
  exact ⟨w, e, .of_run ran .start, by rintro (_ | _) <;> assumption, free, ⟨_, below, member⟩,
    found, zero, complete, empty⟩

end World

end OperationSystems.Proxy
