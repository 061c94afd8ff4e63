import OperationSystems.Foundation.Transition
import OperationSystems.Proxy.Registry

/-!
# What the steps of others leave alone

A step of one worker keeps the entries of the others: it frees only what it
passes to `cache_entry_destroy`, and it changes the contents or the marks of an
entry only with a broadcast. So what a worker knows about its entry stays true
while it is not the one to move, and the proxy simulates the shared registry.
-/

namespace OperationSystems.Proxy

open CStrings Cache SharedRegistry

/-- The entry that the next step passes to `cache_entry_destroy`. -/
def destroys (t : CacheTable) : Pc → Option Ptr
  | .joining _ (.decide p isFailed) =>
      if isFailed = true ∧ (t.heap p).map CacheEntry.refcnt = some 0 then some p else none
  | .releasing p _ .destroy => some p
  | _ => none

/-- What a step does to the table: most steps nothing, and only a writer that has not
marked its entry yet broadcasts. -/
inductive Touches (t : CacheTable) : Pc → Effect → Prop
  | nothing {pc : Pc} {effect : Effect} : effect.table = t → effect.broadcast = none →
      Touches t pc effect
  | create (request : Request) (answer : CreateAnswer) :
      Touches t (.joining request .search) (afterJoin request (t.startNew request.key answer))
  | decide (request : Request) (p : Ptr) (isFailed : Bool) (answer : CreateAnswer)
      (result : CacheTable × Option (Ptr × Bool)) :
      t.decideFound request.key p isFailed answer = some result →
        Touches t (.joining request (.decide p isFailed)) (afterJoin request result)
  | append {effect : Effect} (request : Request) (p : Ptr) (total : Nat) (alive : Bool)
      (block : Block) (e : CacheEntry) (answer : ReallocAnswer) : t.heap p = some e →
      effect.table = t.modify p (fun e => (cacheAppendData e (some block) answer).2) →
      effect.broadcast = (if e.failed then none else some p) →
        Touches t (.fetching request p total alive (.append block)) effect
  | mark {effect : Effect} (request : Request) (p : Ptr) (total : Nat) (alive complete : Bool) :
      effect.table = t.modify p (if complete then cacheMarkComplete else cacheMarkFailed) →
      effect.broadcast = some p →
        Touches t (.fetching request p total alive (.mark complete)) effect
  | decrement {effect : Effect} (p : Ptr) (amWriter : Bool) :
      effect.table = t.decrement p → effect.broadcast = none →
        Touches t (.releasing p amWriter .decrement) effect
  | unlink {effect : Effect} (p : Ptr) (amWriter : Bool) (e : CacheEntry) :
      t.heap p = some e → t.unlink (t.index e.key) p = some effect.table →
      effect.broadcast = none → Touches t (.releasing p amWriter (.decide false)) effect
  | destroy {effect : Effect} (p : Ptr) (amWriter : Bool) :
      effect.table = t.cacheEntryDestroy p → effect.broadcast = none →
        Touches t (.releasing p amWriter .destroy) effect

/-- What a writer touches. -/
theorem stepFetch_touches {t : CacheTable} {request : Request} {p : Ptr} {total : Nat}
    {alive : Bool} {answers : Answers} {point : FetchPoint} {effect : Effect}
    (moved : stepFetch t request p total alive answers point = some effect) :
    Touches t (.fetching request p total alive point) effect := by
  cases point with
  | recv =>
      simp only [stepFetch] at moved
      split at moved
      · exact Option.some.inj moved ▸ .nothing rfl rfl
      · exact Option.some.inj moved ▸ .nothing rfl rfl
      · exact Option.some.inj moved ▸ .nothing rfl rfl
      · exact Option.some.inj moved ▸ .nothing rfl rfl
      · obtain ⟨block, given, rfl⟩ := Option.map_eq_some_iff.mp moved
        exact .nothing rfl rfl
  | append block =>
      obtain ⟨e, found, rfl⟩ := Option.map_eq_some_iff.mp moved
      exact .append request p total alive block e answers.realloc found rfl rfl
  | mark complete =>
      obtain ⟨e, found, rfl⟩ := Option.map_eq_some_iff.mp moved
      exact .mark request p total alive complete rfl rfl
  | _ => exact Option.some.inj moved ▸ .nothing rfl rfl

/-- What a release touches. -/
theorem stepRelease_touches {t : CacheTable} {p : Ptr} {amWriter : Bool} {point : ReleasePoint}
    {effect : Effect} (moved : stepRelease t p amWriter point = some effect) :
    Touches t (.releasing p amWriter point) effect := by
  cases point with
  | decrement =>
      obtain ⟨e, found, rfl⟩ := Option.map_eq_some_iff.mp moved
      split_ifs <;> exact .decrement p amWriter rfl rfl
  | readFlags =>
      obtain ⟨e, found, rfl⟩ := Option.map_eq_some_iff.mp moved
      exact .nothing rfl rfl
  | decide keep =>
      cases keep with
      | true => exact Option.some.inj moved ▸ .nothing rfl rfl
      | false =>
          obtain ⟨e, found, moved⟩ := Option.bind_eq_some_iff.mp moved
          obtain ⟨t', unlinked, rfl⟩ := Option.map_eq_some_iff.mp moved
          exact .unlink p amWriter e found unlinked rfl
  | destroy => exact Option.some.inj moved ▸ .destroy p amWriter rfl rfl
  | _ => exact Option.some.inj moved ▸ .nothing rfl rfl

/-- **One step** touches an entry in one of these ways. -/
theorem advance_touches {t : CacheTable} {answers : Answers} {pc : Pc} {effect : Effect}
    (moved : advance t answers pc = some effect) : Touches t pc effect := by
  cases pc with
  | idle => exact Option.some.inj moved ▸ .nothing rfl rfl
  | reading buf =>
      rcases stepRead_cases moved with rfl | ⟨more, rfl⟩ | ⟨request, rfl⟩ <;>
        exact .nothing rfl rfl
  | joining request point =>
      cases point with
      | search =>
          simp only [advance, stepJoin] at moved
          split at moved
          · cases moved
          · exact Option.some.inj moved ▸ .create request answers.create
          · exact Option.some.inj moved ▸ .nothing rfl rfl
      | readFailed p =>
          obtain ⟨e, found, rfl⟩ := Option.map_eq_some_iff.mp moved
          exact .nothing rfl rfl
      | decide p isFailed =>
          obtain ⟨result, decided, rfl⟩ := Option.map_eq_some_iff.mp moved
          exact .decide request p isFailed answers.create result decided
      | _ => exact Option.some.inj moved ▸ .nothing rfl rfl
  | streaming p offset point =>
      cases point with
      | pass =>
          obtain ⟨e, found, rfl⟩ := Option.map_eq_some_iff.mp moved
          exact .nothing rfl rfl
      | _ => exact Option.some.inj moved ▸ .nothing rfl rfl
  | fetching request p total alive point => exact stepFetch_touches moved
  | releasing p amWriter point => exact stepRelease_touches moved

/-- Only a writer that has not marked its entry yet broadcasts. -/
theorem Touches.of_broadcast {t : CacheTable} {pc : Pc} {effect : Effect} {q : Ptr}
    (touches : Touches t pc effect) (loud : effect.broadcast = some q) :
    role pc = .producer q ∨ role pc = .quitter q := by
  cases touches with
  | nothing same quiet => simp [quiet] at loud
  | create request answer => cases loud
  | decide request p isFailed answer result decided => cases loud
  | append request p total alive block e answer found changed shouts =>
      rw [shouts] at loud
      split_ifs at loud
      exact .inl (congrArg Role.producer (Option.some.inj loud))
  | mark request p total alive complete changed shouts =>
      obtain rfl := Option.some.inj (shouts.symm.trans loud)
      cases complete with
      | false => exact .inr rfl
      | true => exact .inl rfl
  | decrement p amWriter changed quiet => simp [quiet] at loud
  | unlink p amWriter e found unlinked quiet => simp [quiet] at loud
  | destroy p amWriter changed quiet => simp [quiet] at loud

/-- An entry before and after a step: its contents grow and its marks stay, and
without a broadcast neither changes. -/
structure Evolves (loud : Prop) (e f : CacheEntry) : Prop where
  key : f.key = e.key
  stored : e.stored <+: f.stored
  complete : e.complete = true → f.complete = true
  failed : e.failed = true → f.failed = true
  quiet : ¬ loud → f.stored = e.stored ∧ f.complete = e.complete ∧ f.failed = e.failed

namespace Evolves

variable {loud : Prop} {e f : CacheEntry}

/-- An entry that stores the same under the same marks. -/
theorem of_same (key : f.key = e.key) (stored : f.stored = e.stored)
    (complete : f.complete = e.complete) (failed : f.failed = e.failed) : Evolves loud e f :=
  ⟨key, stored ▸ List.prefix_refl _, fun done => complete.trans done, fun bad => failed.trans bad,
    fun _ => ⟨stored, complete, failed⟩⟩

theorem refl : Evolves loud e e := of_same rfl rfl rfl rfl

theorem of_detach (same : f.detach = e.detach) : Evolves loud e f := by
  have stored : f.detach.stored = e.detach.stored := by rw [same]
  have complete : f.detach.complete = e.detach.complete := by rw [same]
  have failed : f.detach.failed = e.detach.failed := by rw [same]
  exact of_same (CacheTable.key_of_detach same) stored complete failed

theorem size_le (evolves : Evolves loud e f) : e.size ≤ f.size := by
  rw [← e.length_stored, ← f.length_stored]
  exact evolves.stored.length_le

/-- It only grows where somebody broadcasts. -/
theorem size_eq (evolves : Evolves loud e f) (quiet : ¬ loud) : f.size = e.size := by
  rw [← e.length_stored, ← f.length_stored, (evolves.quiet quiet).1]

end Evolves

/-- The entries of a table after a step that frees none of them. -/
def Preserves (t : CacheTable) (effect : Effect) (q : Ptr) : Prop :=
  ∀ e, t.heap q = some e →
    ∃ f, effect.table.heap q = some f ∧ Evolves (effect.broadcast = some q) e f

theorem Preserves.same {t : CacheTable} {effect : Effect} {q : Ptr} (same : effect.table = t) :
    Preserves t effect q := fun e found => ⟨e, same ▸ found, .refl⟩

/-- An entry that is relinked is preserved. -/
theorem Preserves.of_detach {t : CacheTable} {effect : Effect} {q : Ptr}
    (same : (effect.table.heap q).map CacheEntry.detach = (t.heap q).map CacheEntry.detach) :
    Preserves t effect q := by
  intro e found
  rw [found] at same
  obtain ⟨f, there, equal⟩ := Option.map_eq_some_iff.mp same
  exact ⟨f, there, .of_detach equal⟩

/-- An entry that evolves is preserved. -/
theorem Preserves.modify {t : CacheTable} {effect : Effect} {p q : Ptr}
    {change : CacheEntry → CacheEntry} (changed : effect.table = t.modify p change)
    (evolves : ∀ e, t.heap p = some e → Evolves (effect.broadcast = some p) e (change e)) :
    Preserves t effect q := by
  intro e found
  by_cases same : q = p
  · subst same
    exact ⟨change e, by simp [changed, CacheTable.modify, found], evolves e found⟩
  · exact ⟨e, by simp [changed, CacheTable.modify, same, found], .refl⟩

/-- Creating an entry keeps the others. -/
theorem startNew_heap {t : CacheTable} {key : CString} {answer : CreateAnswer} {q : Ptr}
    (older : q ≠ t.fresh) : (t.startNew key answer).1.heap q = t.heap q := by
  unfold CacheTable.startNew
  split
  · rfl
  · simp [CacheTable.push, older]

/-- Looking up and creating keep every entry but a dropped one. -/
theorem decideFound_preserves {t : CacheTable} (bounded : ∀ p, t.fresh ≤ p → t.heap p = none)
    {request : Request} {p q : Ptr} {isFailed : Bool} {answer : CreateAnswer}
    {result : CacheTable × Option (Ptr × Bool)}
    (decided : t.decideFound request.key p isFailed answer = some result)
    (kept : destroys t (.joining request (.decide p isFailed)) ≠ some q) :
    Preserves t (afterJoin request result) q := by
  intro f there
  have older : q ≠ t.fresh := by
    rintro rfl
    rw [bounded _ le_rfl] at there
    cases there
  cases found : t.heap p with
  | none => simp [CacheTable.decideFound, found] at decided
  | some e =>
      simp only [CacheTable.decideFound, found] at decided
      split_ifs at decided with drop
      · obtain ⟨t', unlinked, rfl⟩ := Option.map_eq_some_iff.mp decided
        obtain ⟨fresh, same⟩ := CacheTable.unlink_detach unlinked
        have other : q ≠ p := by
          rintro rfl
          exact kept (by simp [destroys, found, drop])
        have before : ((t'.cacheEntryDestroy p).startNew request.key answer).1.heap q =
            t'.heap q := by
          rw [startNew_heap (by
            change q ≠ t'.fresh
            rw [fresh]
            exact older)]
          simp [CacheTable.cacheEntryDestroy, other]
        have kept : ((afterJoin request ((t'.cacheEntryDestroy p).startNew request.key
            answer)).table.heap q).map CacheEntry.detach = (t.heap q).map CacheEntry.detach :=
          (congrArg _ before).trans (same q)
        exact Preserves.of_detach kept f there
      · obtain rfl := Option.some.inj decided
        have changed : (afterJoin request (t.modify p fun e => e.withRefcnt (e.refcnt + 1),
            some (p, false))).table = t.modify p fun e => e.withRefcnt (e.refcnt + 1) := rfl
        exact Preserves.modify changed (fun _ _ => .of_same rfl rfl rfl rfl) f there

/-- An append lets an entry evolve, and is followed by a broadcast if it stores anything. -/
theorem cacheAppendData_evolves {e : CacheEntry} {block : Block} {answer : ReallocAnswer}
    {p : Ptr} :
    Evolves ((if e.failed then none else some p) = some p) e
      (cacheAppendData e (some block) answer).2 := by
  rcases cacheAppendData_spec e (some block) answer with ⟨next, ran, appended, sane⟩ | ⟨ran, _⟩
  · rw [ran]
    refine ⟨appended.key, appended.stored ▸ List.prefix_append _ _,
      fun done => appended.complete.trans done, fun bad => appended.failed.trans bad,
      fun quiet => ⟨?_, appended.complete, appended.failed⟩⟩
    have none : payload (some block) = [] := by
      by_contra some
      exact quiet (by simp [sane some])
    rw [appended.stored, none, List.append_nil]
  · rw [ran]
    refine ⟨rfl, List.prefix_refl _, id, fun _ => rfl, fun quiet => ⟨rfl, rfl, ?_⟩⟩
    cases failed : e.failed with
    | true => rfl
    | false => exact absurd (by simp [failed]) quiet

/-- **A step keeps every entry it does not destroy**, and changes what is stored
or marked only with a broadcast. -/
theorem Touches.preserves {t : CacheTable} (bounded : ∀ p, t.fresh ≤ p → t.heap p = none)
    {pc : Pc} {effect : Effect} {q : Ptr} (touches : Touches t pc effect)
    (kept : destroys t pc ≠ some q) : Preserves t effect q := by
  cases touches with
  | nothing same quiet => exact .same same
  | create request answer =>
      intro e found
      refine ⟨e, (startNew_heap ?_).trans found, .refl⟩
      rintro rfl
      rw [bounded _ le_rfl] at found
      cases found
  | decide request p isFailed answer result decided =>
      exact decideFound_preserves bounded decided kept
  | append request p total alive block e answer found changed loud =>
      refine .modify changed fun old there => ?_
      obtain rfl := Option.some.inj (found.symm.trans there)
      rw [loud]
      exact cacheAppendData_evolves
  | mark request p total alive complete changed loud =>
      refine .modify changed fun old there => ?_
      cases complete with
      | true => exact ⟨rfl, List.prefix_refl _, fun _ => rfl, id, fun quiet => absurd loud quiet⟩
      | false => exact ⟨rfl, List.prefix_refl _, id, fun _ => rfl, fun quiet => absurd loud quiet⟩
  | decrement p amWriter changed quiet =>
      exact .modify changed fun _ _ => .of_same rfl rfl rfl rfl
  | unlink p amWriter e found unlinked quiet =>
      exact .of_detach ((CacheTable.unlink_detach unlinked).2 q)
  | destroy p amWriter changed quiet =>
      have other : q ≠ p := fun same => kept (congrArg some same.symm)
      intro e found
      exact ⟨e, by simp [changed, CacheTable.cacheEntryDestroy, other, found], .refl⟩

/-- A later table: no address is given out twice, and an entry that was not there
is new and unmarked. -/
structure Descends (t t' : CacheTable) : Prop where
  fresh : t.fresh ≤ t'.fresh
  born : ∀ q f, t'.heap q = some f →
    (∃ e, t.heap q = some e) ∨ (q = t.fresh ∧ f.complete = false)

namespace Descends

variable {t t' : CacheTable}

theorem refl : Descends t t := ⟨le_rfl, fun _ f found => .inl ⟨f, found⟩⟩

theorem of_detach (fresh : t'.fresh = t.fresh)
    (same : ∀ q, (t'.heap q).map CacheEntry.detach = (t.heap q).map CacheEntry.detach) :
    Descends t t' := by
  refine ⟨fresh.ge, fun q f found => .inl ?_⟩
  obtain ⟨e, before, _⟩ := CacheTable.exists_of_detach (same q) found
  exact ⟨e, before⟩

theorem modify {p : Ptr} {change : CacheEntry → CacheEntry} : Descends t (t.modify p change) := by
  refine ⟨le_rfl, fun q f found => .inl ?_⟩
  obtain ⟨e, before, _⟩ := CacheTable.modify_heap found
  exact ⟨e, before⟩

/-- Freeing an entry lets none be born. -/
theorem destroy {p : Ptr} : Descends t (t.cacheEntryDestroy p) := by
  refine ⟨le_rfl, fun q f found => .inl ⟨f, ?_⟩⟩
  by_cases same : q = p
  · subst same
    simp [CacheTable.cacheEntryDestroy] at found
  · simpa [CacheTable.cacheEntryDestroy, same] using found

/-- A creation lets the newest entry be born. -/
theorem startNew {key : CString} {answer : CreateAnswer} :
    Descends t (t.startNew key answer).1 := by
  unfold CacheTable.startNew
  split
  · exact refl
  · rename_i e created
    obtain rfl := cacheEntryCreate_eq created
    refine ⟨Nat.le_succ _, fun q f found => ?_⟩
    by_cases same : q = t.fresh
    · subst same
      refine .inr ⟨rfl, ?_⟩
      have equal : { freshEntry key with next := t.buckets (t.index key) } = f := by
        simpa [CacheTable.push] using found
      exact equal ▸ rfl
    · exact .inl ⟨f, by simpa [CacheTable.push, same] using found⟩

/-- What descends from a table that only lost entries. -/
theorem of_shrink {middle : CacheTable} (fresh : middle.fresh = t.fresh)
    (older : ∀ q f, middle.heap q = some f → ∃ e, t.heap q = some e)
    (later : Descends middle t') : Descends t t' := by
  refine ⟨fresh ▸ later.fresh, fun q f found => ?_⟩
  rcases later.born q f found with ⟨e, there⟩ | ⟨newest, unmarked⟩
  · exact .inl (older q e there)
  · exact .inr ⟨newest.trans fresh, unmarked⟩

end Descends

/-- So does a creation in place of a failed entry. -/
theorem decideFound_descends {t : CacheTable} {key : CString} {p : Ptr} {isFailed : Bool}
    {answer : CreateAnswer} {result : CacheTable × Option (Ptr × Bool)}
    (decided : t.decideFound key p isFailed answer = some result) : Descends t result.1 := by
  unfold CacheTable.decideFound at decided
  split at decided
  · cases decided
  · split_ifs at decided
    · obtain ⟨t', unlinked, rfl⟩ := Option.map_eq_some_iff.mp decided
      obtain ⟨fresh, same⟩ := CacheTable.unlink_detach unlinked
      have bound : (t'.cacheEntryDestroy p).fresh = t.fresh := fresh
      refine .of_shrink bound (fun q f found => ?_) .startNew
      rcases Descends.destroy.born q f found with ⟨e, there⟩ | ⟨_, _⟩
      · obtain ⟨old, before, _⟩ := CacheTable.exists_of_detach (same q) there
        exact ⟨old, before⟩
      · by_cases here : q = p
        · subst here
          simp [CacheTable.cacheEntryDestroy] at found
        · obtain ⟨old, before, _⟩ := CacheTable.exists_of_detach (same q)
            (by simpa [CacheTable.cacheEntryDestroy, here] using found)
          exact ⟨old, before⟩
    · obtain rfl := Option.some.inj decided
      exact .modify

/-- **Addresses are not used again**, and a new entry is unmarked. -/
theorem Touches.descends {t : CacheTable} {pc : Pc} {effect : Effect}
    (touches : Touches t pc effect) : Descends t effect.table := by
  cases touches with
  | nothing same quiet => exact same ▸ .refl
  | create request answer => exact .startNew
  | decide request p isFailed answer result decided => exact decideFound_descends decided
  | append request p total alive block e answer found changed loud => exact changed ▸ .modify
  | mark request p total alive complete changed loud => exact changed ▸ .modify
  | decrement p amWriter changed quiet => exact changed ▸ .modify
  | unlink p amWriter e found unlinked quiet =>
      obtain ⟨fresh, same⟩ := CacheTable.unlink_detach unlinked
      exact .of_detach fresh same
  | destroy p amWriter changed quiet => exact changed ▸ .destroy

/-- The entry a worker holds or deals with inside `t->lock`. -/
def Concerns (pc : Pc) (q : Ptr) : Prop := (role pc).held = some q ∨ (role pc).inside = some q

/-- What a worker knows stays true under a step of another one that keeps its entry
and does not broadcast on an entry it is about to decide on. -/
theorem Asserts.stable {t : CacheTable} {pc : Pc} {effect : Effect} (known : Asserts t pc)
    (kept : ∀ q, Concerns pc q → Preserves t effect q)
    (calm : ∀ q, role pc = .retiring q → effect.broadcast ≠ some q) :
    Asserts effect.table (rouse effect.broadcast pc) := by
  rcases rouse_cases effect.broadcast pc with ⟨p, offset, _, rfl, woken⟩ | ⟨same, asleep⟩
  · rw [woken]
    trivial
  rw [same]
  cases pc with
  | idle => trivial
  | reading buf => trivial
  | joining request point =>
      cases point with
      | lockTable => trivial
      | search => trivial
      | lockEntry p =>
          obtain ⟨e, found, key⟩ := known
          obtain ⟨f, there, evolves⟩ := kept p (.inr rfl) e found
          exact ⟨f, there, evolves.key.trans key⟩
      | readFailed p =>
          obtain ⟨e, found, key⟩ := known
          obtain ⟨f, there, evolves⟩ := kept p (.inr rfl) e found
          exact ⟨f, there, evolves.key.trans key⟩
      | decide p isFailed =>
          obtain ⟨e, found, key, failed⟩ := known
          obtain ⟨f, there, evolves⟩ := kept p (.inr rfl) e found
          exact ⟨f, there, evolves.key.trans key, fun bad => evolves.failed (failed bad)⟩
      | logHit p =>
          obtain ⟨e, found, key⟩ := known
          obtain ⟨f, there, evolves⟩ := kept p (.inl rfl) e found
          exact ⟨f, there, evolves.key.trans key⟩
  | streaming p offset point =>
      cases point with
      | wait =>
          obtain ⟨e, found, finish, complete, sane⟩ := known
          obtain ⟨f, there, evolves⟩ := kept p (.inl rfl) e found
          have quiet := asleep p offset rfl
          obtain ⟨_, marks⟩ := evolves.quiet quiet
          exact ⟨f, there, finish.trans (evolves.size_eq quiet).symm, marks.1.trans complete,
            marks.2.trans sane⟩
      | lockEntry => trivial
      | pass => trivial
      | send left => trivial
  | fetching request p total alive point =>
      obtain ⟨e, found, key⟩ := known
      have holds : (role (.fetching request p total alive point)).held = some p := by
        cases point with
        | lockMark complete => cases complete <;> rfl
        | mark complete => cases complete <;> rfl
        | _ => rfl
      obtain ⟨f, there, evolves⟩ := kept p (.inl holds) e found
      exact ⟨f, there, evolves.key.trans key⟩
  | releasing p amWriter point =>
      cases point with
      | decide keep =>
          obtain ⟨e, found, decided⟩ := known
          obtain ⟨f, there, evolves⟩ := kept p (.inr rfl) e found
          obtain ⟨_, complete, failed⟩ := evolves.quiet (calm p rfl)
          exact ⟨f, there, by rw [decided, complete, failed]⟩
      | _ => trivial

namespace World

variable {ι : Type*} {w next : World ι} {i : ι} {answers : Answers}

theorem Local.start : (World.start ι).Local :=
  ⟨CacheTable.emptyTable_wellLinked.1, .start, fun _ => trivial⟩

variable [Fintype ι]

/-- The registry is empty. -/
theorem sound_start : Sound (World.start ι).view := by
  have none : { q : Ptr | (World.start ι).table.Linked q } = ∅ := by
    ext q
    refine iff_of_false ?_ (Set.notMem_empty q)
    rintro ⟨j, below, member⟩
    have empty : (World.start ι).table.chain j = [] := CacheTable.emptyTable_wellLinked.2 j below
    rw [empty] at member
    cases member
  have same : (World.start ι).view = ⟨fun _ => Option.none, ∅, fun _ => .idle⟩ := by
    rw [view, registry, none]
    rfl
  rw [same]
  exact Sound.initial

/-- What is passed to `cache_entry_destroy` was unlinked by that worker before; the
failed entries that a lookup would drop are never there. -/
theorem Local.reclaiming_of_destroys (here : w.Local) (sound : Sound w.view) {q : Ptr}
    (frees : destroys w.table (w.pc i) = some q) : role (w.pc i) = .reclaiming q := by
  cases place : w.pc i with
  | joining request point =>
      cases point with
      | decide p isFailed =>
          obtain ⟨e, found, _, held⟩ := here.decide_held sound place
          rw [place] at frees
          simp [destroys, found, held] at frees
      | _ =>
          rw [place] at frees
          cases frees
  | releasing p amWriter point =>
      cases point with
      | destroy =>
          rw [place] at frees
          obtain rfl := Option.some.inj frees
          rfl
      | _ =>
          rw [place] at frees
          cases frees
  | _ =>
      rw [place] at frees
      cases frees

/-- No worker is concerned with an entry that is being destroyed. -/
theorem Local.not_concerns_of_destroys (here : w.Local) (sound : Sound w.view) {q : Ptr}
    (frees : destroys w.table (w.pc i) = some q) (j : ι) : ¬ Concerns (w.pc j) q := by
  have out := (sound.listing.reclaiming_out i q (here.reclaiming_of_destroys sound frees)).1
  rintro (holds | within)
  · exact out (sound.listing.held_listed j q holds)
  · exact out (sound.listing.inside_listed j q within)

variable [DecidableEq ι]

/-- Every step keeps the invariant and is an act of the registry or invisible to
it. -/
theorem Local.step (here : w.Local) (sound : Sound w.view)
    (stepped : w.step (i, answers) = some next) :
    next.Local ∧ (next.view = w.view ∨ Move w.view next.view) := by
  obtain ⟨effect, moved, free, rfl⟩ := step_eq_some_iff.mp stepped
  have refined := advance_refined here sound moved
  rw [view_apply]
  refine ⟨⟨refined.linked, here.owned.apply (advance_balanced moved) free, fun j => ?_⟩,
    refined.view⟩
  change Asserts effect.table (w.pcs i effect j)
  unfold pcs
  by_cases same : j = i
  · subst same
    rw [Function.update_self]
    exact refined.asserts
  · rw [Function.update_of_ne same]
    refine (here.asserts j).stable (fun q concerned => ?_) fun q retires loud => ?_
    · exact (advance_touches moved).preserves here.linked.bounded fun frees =>
        here.not_concerns_of_destroys sound frees j concerned
    · apply sound.unheld j q retires i
      change (role (w.pc i)).held = some q
      rcases (advance_touches moved).of_broadcast loud with was | was <;> rw [was] <;> rfl

/-- **The step lemma** for both. -/
theorem Local.step_sound (here : w.Local) (sound : Sound w.view)
    (stepped : w.step (i, answers) = some next) : next.Local ∧ Sound next.view := by
  obtain ⟨kept, same | moves⟩ := here.step sound stepped
  · exact ⟨kept, same ▸ sound⟩
  · exact ⟨kept, sound.move moves⟩

/-- What the steps keep where the invariants hold, holds along a run with them. -/
theorem Local.invariant {allowed : World ι → ι × Answers → Prop} {motive : World ι → Prop}
    {first : World ι} (here : first.Local) (sound : Sound first.view) (initial : motive first)
    (kept : ∀ (v : World ι) i answers (next : World ι), v.Local → Sound v.view → motive v →
      allowed v (i, answers) → v.step (i, answers) = some next → motive next)
    (reached : Transition.ReachesBy World.step allowed first w) :
    (w.Local ∧ Sound w.view) ∧ motive w := by
  refine reached.invariant (motive := fun v : World ι => (v.Local ∧ Sound v.view) ∧ motive v)
    ⟨⟨here, sound⟩, initial⟩ ?_
  rintro v ⟨i, answers⟩ next ⟨⟨here, sound⟩, holds⟩ permitted stepped
  exact ⟨here.step_sound sound stepped, kept v i answers next here sound holds permitted stepped⟩

/-- **The proxy simulates the shared registry.** -/
theorem simulation : Transition.Simulation (step (ι := ι)) Local view Move Sound where
  simulates := fun _ _ _ here sound stepped => here.step sound stepped
  preserves := fun _ _ sound moved => sound.move moved

/-- The invariants hold in every reachable state of the proxy. -/
theorem sound_of_reaches (reached : Transition.Reaches step (start ι) w) :
    w.Local ∧ Sound w.view :=
  simulation.invariant .start sound_start reached

/-- Every run of the proxy is a run of the shared registry. -/
theorem registry_run (reached : Transition.Reaches step (start ι) w) :
    Relation.ReflTransGen Move (start ι).view w.view :=
  simulation.reflTransGen .start sound_start reached

end World

end OperationSystems.Proxy
