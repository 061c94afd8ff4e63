import OperationSystems.Proxy.References

/-!
# One fetch for each key, and what it leaves behind

No two handlers fetch the answer of one key at the same time, and after a fetch that
was marked complete nobody fetches that key again. An entry that nobody holds is a
complete one that has not failed, so the branch of `cache_start_or_join` that drops
and recreates a failed entry is never taken. A failed entry is found only by requests
that come while somebody still holds it.
-/

namespace OperationSystems.Proxy

open CStrings Cache SharedRegistry

/-- The entry a handler is the writer of: from `*am_writer = 1` to the decrement in
its `cache_release`. -/
def writing : Pc → Option Ptr
  | .fetching _ p _ _ _ => some p
  | .releasing p true .lockTable => some p
  | .releasing p true .decrement => some p
  | _ => none

/-- The role of a worker writes where the worker does. -/
theorem writes_role (pc : Pc) : (role pc).writes = writing pc := by
  cases pc with
  | idle => rfl
  | reading buf => rfl
  | joining request point => cases point <;> rfl
  | streaming p offset point => rfl
  | fetching request p total alive point =>
      cases point with
      | lockMark complete => cases complete <;> rfl
      | mark complete => cases complete <;> rfl
      | _ => rfl
  | releasing p amWriter point =>
      cases point with
      | lockTable => cases amWriter <;> rfl
      | decrement => cases amWriter <;> rfl
      | _ => cases amWriter <;> rfl

/-- The request of the client of `refusal`. -/
def sampleRequest : Request := ⟨⟨ascii "a", by decide⟩, rootUri⟩

/-- A client of another answer of the same origin. -/
def otherRefusal : Answers :=
  { refusal with recv := .bytes (ascii "GET /b HTTP/1.0\r\nHost: a\r\n\r\n") }

/-- The answers of an origin that accepts the request and closes the connection, and
of a client that takes what is sent. -/
def closing : Answers where
  recv := .closed
  send := .took 4096
  connect := true
  create := .ok
  realloc := some fun _ => 0

namespace World

variable {ι : Type*} {w next : World ι} {i : ι} {answers : Answers}

/-- A handler that obtained a failed entry as a reader and has not sent anything of
it, up to its `cache_release`. -/
def Unserved (w : World ι) (i : ι) (p : Ptr) : Prop :=
  (∃ request, w.pc i = .joining request (.logHit p)) ∨ w.pc i = .streaming p 0 .lockEntry ∨
    w.pc i = .streaming p 0 .pass ∨ w.pc i = .releasing p false .lockTable

/-- The entry has failed. -/
def Failed (w : World ι) (p : Ptr) : Prop := ∃ e, w.table.heap p = some e ∧ e.failed = true

theorem Unserved.obtained {p : Ptr} (unserved : w.Unserved i p) : obtained (w.pc i) = some p := by
  rcases unserved with ⟨request, place⟩ | place | place | place <;> rw [place] <;> rfl

variable [Fintype ι]

/-- Who counts is there. -/
theorem holder_of_refcnt (sound : Sound w.view) {p : Ptr} {e : CacheEntry}
    (found : w.table.heap p = some e) (counts : e.refcnt ≠ 0) :
    ∃ j, obtained (w.pc j) = some p := by
  have counted : e.refcnt = _ := sound.counted p (item e) (view_item found)
  have positive : 0 < e.refcnt :=
    lt_of_le_of_ne (counted ▸ census_nonneg _ _) (Ne.symm counts)
  rw [counted] at positive
  obtain ⟨j, holds⟩ := (census_pos_iff _ _).mp positive
  exact ⟨j, (held_role _).symm.trans holds⟩

/-- While nobody decides on an entry, a linked entry that failed is held. -/
theorem Failed.holder {p : Ptr} (failed : w.Failed p) (sound : Sound w.view)
    (quiet : w.view.Quiet) (member : w.table.Linked p) : ∃ j, obtained (w.pc j) = some p := by
  obtain ⟨e, found, bad⟩ := failed
  refine holder_of_refcnt sound found fun zero => ?_
  have good := (sound.resting_good quiet member (view_item found) zero).2
  exact absurd (good.symm.trans bad) (by decide)

/-! ## Writers of one key -/

variable [DecidableEq ι]

/-- The entry of a writer that marks it complete is good from then on. -/
theorem Local.good_of_mark (here : w.Local) (sound : Sound w.view) {request : Request} {p : Ptr}
    {total : Nat} {alive : Bool} (place : w.pc i = .fetching request p total alive (.mark true))
    (stepped : w.step (i, answers) = some next) : Good next.view p request.key := by
  obtain ⟨_, sound'⟩ := here.step_sound sound stepped
  have known := here.asserts i
  rw [place] at known
  obtain ⟨e, found, key⟩ := known
  have was : w.view.role i = .producer p := congrArg role place
  have clean := sound.marking.producer_clean i p (item e) was (view_item found)
  obtain ⟨effect, moved, _, rfl⟩ := step_eq_some_iff.mp stepped
  rw [place] at moved
  obtain ⟨old, _, same⟩ := Option.map_eq_some_iff.mp moved
  have now : ((w.apply i effect).view.role i).held = some p := by
    change (role ((w.apply i effect).pc i)).held = some p
    rw [apply_pc_self, ← same]
    rfl
  have marked : (w.apply i effect).table.heap p = some (cacheMarkComplete e) := by
    simp [World.apply, ← same, CacheTable.modify, found]
  exact ⟨sound'.listing.held_listed i p now, item (cacheMarkComplete e), view_item marked, key,
    rfl, clean.2⟩

/-- A good entry stays good. -/
theorem Local.good_step (here : w.Local) (sound : Sound w.view) {p : Ptr} {key : CString}
    (stepped : w.step (i, answers) = some next) (good : Good w.view p key) :
    Good next.view p key := by
  obtain ⟨_, same | moves⟩ := here.step sound stepped
  · exact same ▸ good
  · exact good.move sound moves

/-- **Single flight.** In every reachable state two writers of one key are one
handler, and behind a step that marks the entry of a key complete no step makes any
handler the writer of that key. -/
theorem single_flight (reached : Transition.Reaches step (start ι) w) :
    (∀ i j p q, writing (w.pc i) = some p → writing (w.pc j) = some q →
      (w.table.heap p).map CacheEntry.key = (w.table.heap q).map CacheEntry.key → i = j) ∧
    ∀ i request p total alive answers next,
      w.pc i = .fetching request p total alive (.mark true) →
      w.step (i, answers) = some next →
        ∀ later, Transition.Reaches step next later →
          ∀ j answers' after q, later.step (j, answers') = some after →
            writing (later.pc j) = none → writing (after.pc j) = some q →
              (after.table.heap q).map CacheEntry.key ≠ some request.key := by
  obtain ⟨here, sound⟩ := sound_of_reaches reached
  have keys : ∀ (v : World ι) q, v.view.keyOf q = (v.table.heap q).map CacheEntry.key := by
    intro v q
    exact Option.map_map ..
  refine ⟨fun i j p q one two same => ?_, ?_⟩
  · exact sound.writers_apart ((writes_role _).trans one) ((writes_role _).trans two)
      (((keys w p).trans same).trans (keys w q).symm)
  · intro i request p total alive answers next place stepped later reached' j answers' after q
      stepped' before writes
    obtain ⟨kept, sound_next⟩ := here.step_sound sound stepped
    obtain ⟨⟨here', sound'⟩, good⟩ := kept.invariant sound_next
      (motive := fun v : World ι => Good v.view p request.key)
      (here.good_of_mark sound place stepped)
      (fun v k label following here sound good _ moved => here.good_step sound moved good) reached'
    obtain ⟨_, same | moves⟩ := here'.step sound' stepped'
    · have still : (role (after.pc j)).writes = (role (later.pc j)).writes :=
        congrArg (fun view => (view.role j).writes) same
      rw [writes_role, writes_role, before, writes] at still
      cases still
    · rw [← keys after q]
      exact good.no_new_writer moves ((writes_role _).trans before) ((writes_role _).trans writes)

/-- The theorem at a fetch that ends complete, behind which another client becomes the
writer of another key. -/
theorem single_flight_run :
    ∃ (w next later after : World Bool) (q : Ptr), Transition.Reaches step (start Bool) w ∧
      w.pc true = .fetching sampleRequest 0 0 true (.mark true) ∧
      w.step (true, closing) = some next ∧ Transition.Reaches step next later ∧
      later.step (false, otherRefusal) = some after ∧ writing (after.pc false) = some q ∧
      (after.table.heap q).map CacheEntry.key ≠ some sampleRequest.key := by
  have places : ((Transition.run step (start Bool) (List.replicate 4 (true, refusal) ++
      List.replicate 4 (true, closing))).bind fun w => (w.step (true, closing)).bind fun next =>
        (Transition.run step next (List.replicate 3 (false, otherRefusal))).bind fun later =>
          (later.step (false, otherRefusal)).map fun after =>
            (w.pc true, writing (later.pc false), writing (after.pc false))) =
      some (.fetching sampleRequest 0 0 true (.mark true), none, some 1) := by decide +kernel
  obtain ⟨w, ran, places⟩ := Option.bind_eq_some_iff.mp places
  obtain ⟨next, stepped, places⟩ := Option.bind_eq_some_iff.mp places
  obtain ⟨later, ran', places⟩ := Option.bind_eq_some_iff.mp places
  obtain ⟨after, stepped', places⟩ := Option.map_eq_some_iff.mp places
  simp only [Prod.mk.injEq] at places
  obtain ⟨place, before, writes⟩ := places
  have reached : Transition.Reaches step (start Bool) w := .of_run ran .start
  have reached' : Transition.Reaches step next later := .of_run ran' .start
  exact ⟨w, next, later, after, 1, reached, place, stepped, reached', stepped', writes,
    (single_flight reached).2 true sampleRequest 0 0 true closing next place stepped later reached'
      false otherRefusal after 1 stepped' before writes⟩

/-! ## Entries that nobody holds -/

/-- **Idle entries are good ones.** In every reachable state no entry is both complete
and failed, a writer that comes to `cache_release` has marked its entry, a linked entry
without holders is complete and not failed whenever `t->lock` is free, and a lookup
that decides on an entry does not find it failed and unheld. -/
theorem idle_entries_good (reached : Transition.Reaches step (start ι) w) :
    (∀ p e, w.table.heap p = some e → ¬ (e.complete = true ∧ e.failed = true)) ∧
    (∀ j p, w.pc j = .releasing p true .lockTable →
      ∃ e, w.table.heap p = some e ∧ (e.complete = true ∨ e.failed = true)) ∧
    (w.lock .table = none → ∀ p e, w.table.Linked p → w.table.heap p = some e → e.refcnt = 0 →
      e.complete = true ∧ e.failed = false) ∧
    ∀ j request p isFailed, w.pc j = .joining request (.decide p isFailed) →
      ∃ e, w.table.heap p = some e ∧ ¬ (isFailed = true ∧ e.refcnt = 0) := by
  obtain ⟨here, sound⟩ := sound_of_reaches reached
  refine ⟨fun p e found => ?_, fun j p place => ?_, fun free p e member found zero => ?_,
    fun j request p isFailed place => ?_⟩
  · rintro ⟨complete, failed⟩
    rcases sound.marking.not_both p (item e) (view_item found) with unmarked | sane
    · exact absurd (unmarked.symm.trans complete) (by decide)
    · exact absurd (sane.symm.trans failed) (by decide)
  · have was : w.view.role j = .settled p := congrArg role place
    have member : w.table.Linked p := sound.listing.held_listed j p (by rw [was]; rfl)
    obtain ⟨e, found⟩ := here.linked.allocated member
    exact ⟨e, found, sound.marking.settled_marked j p (item e) was (view_item found)⟩
  · exact sound.resting_good (here.owned.quiet_of_free free) member (view_item found) zero
  · obtain ⟨e, found, _, held⟩ := here.decide_held sound place
    exact ⟨e, found, held⟩

/-- The theorem at a fetch that ended complete and was released. -/
theorem idle_entries_good_run :
    ∃ (w : World Bool) (e : CacheEntry), Transition.Reaches step (start Bool) w ∧
      w.table.heap 0 = some e ∧ e.refcnt = 0 ∧ e.complete = true ∧ e.failed = false := by
  have places : ((Transition.run step (start Bool) (List.replicate 4 (true, refusal) ++
      List.replicate 11 (true, closing))).bind fun w => (w.table.heap 0).map fun e =>
        (w.lock .table, decide (0 ∈ w.table.chain (w.table.index sampleRequest.key)), e.refcnt)) =
      some (none, true, 0) := by decide +kernel
  obtain ⟨w, ran, places⟩ := Option.bind_eq_some_iff.mp places
  obtain ⟨e, found, places⟩ := Option.map_eq_some_iff.mp places
  simp only [Prod.mk.injEq, decide_eq_true_eq] at places
  obtain ⟨free, member, zero⟩ := places
  have reached : Transition.Reaches step (start Bool) w := .of_run ran .start
  have positive := (sound_of_reaches reached).1.linked.nonempty
  have linked : w.table.Linked 0 := ⟨_, CacheTable.index_lt positive _, member⟩
  exact ⟨w, e, reached, found, zero,
    (idle_entries_good reached).2.2.1 free 0 e linked found zero⟩

/-! ## Failed entries -/

/-- A held entry that failed stays failed. -/
theorem Failed.step {p : Ptr} {j : ι} (failed : w.Failed p) (here : w.Local)
    (sound : Sound w.view) (holds : obtained (w.pc j) = some p)
    (stepped : w.step (i, answers) = some next) : next.Failed p := by
  obtain ⟨e, found, bad⟩ := failed
  obtain ⟨effect, moved, _, rfl⟩ := step_eq_some_iff.mp stepped
  have kept : Preserves w.table effect p := by
    refine (advance_touches moved).preserves here.linked.bounded fun frees => ?_
    exact here.not_concerns_of_destroys sound frees j (.inl ((held_role _).trans holds))
  obtain ⟨f, there, evolves⟩ := kept e found
  exact ⟨f, there, evolves.failed bad⟩

omit [Fintype ι] in
/-- A reader of a failed entry goes from its hit through one pass to its release. -/
theorem Unserved.step {p : Ptr} {j : ι} (unserved : w.Unserved j p) (failed : w.Failed p)
    (arrived : w.pc j ≠ .releasing p false .lockTable)
    (stepped : w.step (i, answers) = some next) : next.Unserved j p := by
  obtain ⟨effect, moved, _, rfl⟩ := step_eq_some_iff.mp stepped
  unfold Unserved at unserved ⊢
  by_cases same : j = i
  · subst same
    rw [apply_pc_self]
    rcases unserved with ⟨request, place⟩ | place | place | place <;> rw [place] at moved
    · obtain rfl := Option.some.inj moved
      exact .inr (.inl rfl)
    · obtain rfl := Option.some.inj moved
      exact .inr (.inr (.inl rfl))
    · obtain ⟨e, found, bad⟩ := failed
      obtain ⟨old, there, rfl⟩ := Option.map_eq_some_iff.mp moved
      obtain rfl := Option.some.inj (found.symm.trans there)
      have stopped : streamPass e 0 = .failed := by simp [streamPass, bad]
      simp [stopped]
    · exact absurd place arrived
  · rw [apply_pc_of_ne w effect same]
    rcases rouse_cases effect.broadcast (w.pc j) with ⟨q, offset, _, asleep, _⟩ | ⟨rests, _⟩
    · rw [asleep] at unserved
      simp at unserved
    · rw [rests]
      exact unserved

/-- A lookup that decides on an entry returns it to a reader; a failed one has then
another holder. -/
theorem Local.step_decide (here : w.Local) (sound : Sound w.view) {request : Request} {p : Ptr}
    {isFailed : Bool} (place : w.pc i = .joining request (.decide p isFailed))
    (stepped : w.step (i, answers) = some next) :
    next.pc i = .joining request (.logHit p) ∧
      (w.Failed p → ∃ j, j ≠ i ∧ obtained (w.pc j) = some p) := by
  constructor
  · obtain ⟨effect, moved, _, rfl⟩ := step_eq_some_iff.mp stepped
    rw [place] at moved
    obtain ⟨result, decided, rfl⟩ := Option.map_eq_some_iff.mp moved
    obtain ⟨_, _, _, joins⟩ := here.decideFound_eq sound place answers.create
    obtain rfl := Option.some.inj (joins.symm.trans decided)
    rw [apply_pc_self]
    rfl
  · rintro ⟨e, found, bad⟩
    have was : w.view.role i = .inspecting p := congrArg role place
    obtain ⟨j, holds⟩ := holder_of_refcnt sound found fun zero =>
      absurd ((sound.inspected_good was (view_item found) zero).2.symm.trans bad) (by decide)
    refine ⟨j, ?_, holds⟩
    rintro rfl
    rw [place] at holds
    cases holds

/-- A lookup that finds its key nowhere, or only in a failed entry that nobody holds,
makes its caller the writer of a new entry. -/
theorem Local.step_search (here : w.Local) (sound : Sound w.view) {request : Request}
    (place : w.pc i = .joining request .search)
    (unheld : ∀ p e, w.table.Linked p → w.table.heap p = some e → e.key = request.key →
      e.failed = true ∧ ∀ j, obtained (w.pc j) ≠ some p)
    (stepped : w.step (i, answers) = some next)
    (created : cacheEntryCreate answers.create request.key ≠ none) :
    next.pc i = .fetching request w.table.fresh 0 true .connect := by
  have quiet : w.view.Quiet := here.owned.quiet (i := i) (by rw [place]; simp [holding])
    (by rw [place]; rfl)
  obtain ⟨effect, moved, _, rfl⟩ := step_eq_some_iff.mp stepped
  rw [place] at moved
  rw [apply_pc_self]
  rcases here.linked.scan_eq request.key with ⟨p, e, searched, member, found, key⟩ | ⟨searched, _⟩
  · obtain ⟨bad, free⟩ := unheld p e member found key
    obtain ⟨j, holds⟩ := Failed.holder ⟨e, found, bad⟩ sound quiet member
    exact absurd holds (free j)
  · obtain ⟨e, made⟩ := Option.ne_none_iff_exists'.mp created
    simp only [advance, stepJoin, searched, CacheTable.startNew, made, Option.some.injEq] at moved
    rw [← moved]
    rfl

/-- **A failed entry is handed out only while it is held.** In every reachable state:
a lookup that returns a failed entry to a reader does so while another handler holds
that entry, and the reader comes to its `cache_release` without having sent anything;
a failed entry that nobody holds is not linked while `t->lock` is free; and a lookup
that finds its key nowhere or only in such an entry makes the request the writer of a
new entry, if one can be created. -/
theorem failed_handed_out_while_held (reached : Transition.Reaches step (start ι) w) :
    (∀ i request p isFailed answers next, w.pc i = .joining request (.decide p isFailed) →
      w.step (i, answers) = some next → next.pc i = .joining request (.logHit p) ∧
        (w.Failed p → ∃ j, j ≠ i ∧ obtained (w.pc j) = some p)) ∧
    (∀ i request p, w.pc i = .joining request (.logHit p) → w.Failed p →
      ∀ later,
        Transition.ReachesBy step (fun v _ => v.pc i ≠ .releasing p false .lockTable) w later →
          later.Unserved i p) ∧
    (w.lock .table = none → ∀ p, w.table.Linked p → w.Failed p →
      ∃ j, obtained (w.pc j) = some p) ∧
    ∀ i request answers next, w.pc i = .joining request .search →
      (∀ p e, w.table.Linked p → w.table.heap p = some e → e.key = request.key →
        e.failed = true ∧ ∀ j, obtained (w.pc j) ≠ some p) →
      w.step (i, answers) = some next → cacheEntryCreate answers.create request.key ≠ none →
        next.pc i = .fetching request w.table.fresh 0 true .connect ∧
          w.table.heap w.table.fresh = none := by
  obtain ⟨here, sound⟩ := sound_of_reaches reached
  refine ⟨fun i request p isFailed answers next place stepped =>
    here.step_decide sound place stepped, ?_, fun free p member failed =>
    failed.holder sound (here.owned.quiet_of_free free) member,
    fun i request answers next place unheld stepped created =>
      ⟨here.step_search sound place unheld stepped created, here.linked.bounded _ le_rfl⟩⟩
  intro i request p place failed later reached'
  obtain ⟨_, _, unserved⟩ := here.invariant sound
    (motive := fun v : World ι => v.Failed p ∧ v.Unserved i p) ⟨failed, .inl ⟨request, place⟩⟩
    (fun v j label after here sound ⟨failed, unserved⟩ arrived moved =>
      ⟨failed.step here sound unserved.obtained moved, unserved.step failed arrived moved⟩) reached'
  exact unserved

/-- The theorem at a lookup that finds the entry of a failed fetch, which its writer
still holds. -/
theorem failed_handed_out_while_held_run :
    ∃ w next : World Bool, Transition.Reaches step (start Bool) w ∧ w.Failed 0 ∧
      w.step (false, refusal) = some next ∧
      next.pc false = .joining sampleRequest (.logHit 0) ∧
      ∃ j, j ≠ false ∧ obtained (w.pc j) = some 0 := by
  have places : (((Transition.run step (start Bool) (List.replicate 8 (true, refusal) ++
      List.replicate 6 (false, refusal))).bind fun w => (w.step (false, refusal)).map fun next =>
        (w.pc false, (w.table.heap 0).map CacheEntry.failed))) =
      some (.joining sampleRequest (.decide 0 true), some true) := by decide +kernel
  obtain ⟨w, ran, places⟩ := Option.bind_eq_some_iff.mp places
  obtain ⟨next, stepped, places⟩ := Option.map_eq_some_iff.mp places
  simp only [Prod.mk.injEq] at places
  obtain ⟨place, failed⟩ := places
  have reached : Transition.Reaches step (start Bool) w := .of_run ran .start
  have bad : w.Failed 0 := Option.map_eq_some_iff.mp failed
  obtain ⟨joined, holder⟩ :=
    (failed_handed_out_while_held reached).1 false sampleRequest 0 true refusal next place stepped
  exact ⟨w, next, reached, bad, stepped, joined, holder bad⟩

/-- A client that comes when the fetch of its key has already failed is still made a
reader of the failed entry. -/
theorem failed_entry_joined_later :
    ∃ w later : World Bool, Transition.Reaches step (start Bool) w ∧ w.lock .table = none ∧
      w.table.Linked 0 ∧ w.Failed 0 ∧
      (w.table.heap 0).map CacheEntry.key = some sampleRequest.key ∧
      w.pc false = .joining sampleRequest .lockTable ∧ Transition.Reaches step w later ∧
      later.pc false = .joining sampleRequest (.logHit 0) := by
  have places : (((Transition.run step (start Bool) (List.replicate 8 (true, refusal) ++
      List.replicate 2 (false, refusal))).bind fun w =>
        (Transition.run step w (List.replicate 5 (false, refusal))).map fun later =>
          ((w.lock .table, decide (0 ∈ w.table.chain (w.table.index sampleRequest.key) ∧
            w.table.index sampleRequest.key < w.table.nbuckets)), (w.pc false, later.pc false),
            (w.table.heap 0).map CacheEntry.failed, (w.table.heap 0).map CacheEntry.key))) =
      some ((none, true), (.joining sampleRequest .lockTable, .joining sampleRequest (.logHit 0)),
        some true, some sampleRequest.key) := by decide +kernel
  obtain ⟨w, ran, places⟩ := Option.bind_eq_some_iff.mp places
  obtain ⟨later, ran', places⟩ := Option.map_eq_some_iff.mp places
  simp only [Prod.mk.injEq, decide_eq_true_eq] at places
  obtain ⟨⟨free, member, below⟩, ⟨place, joined⟩, failed, key⟩ := places
  exact ⟨w, later, .of_run ran .start, free, ⟨_, below, member⟩, Option.map_eq_some_iff.mp failed,
    key, place, .of_run ran' .start, joined⟩

end World

end OperationSystems.Proxy
