import OperationSystems.Proxy.Interference

/-!
# References and the memory they protect

The reference count of an entry is the number of handlers that obtained it and
have not given it up, and an entry is destroyed once, after it was unlinked, when
nobody holds it. That does not protect `cache_release` from itself: behind the
unlock it still logs the count of an entry whose reference it has just dropped.
-/

namespace OperationSystems.Proxy

open CStrings Cache SharedRegistry

/-- The entry a handler obtained from `cache_start_or_join` and has not yet given
back by the decrement in `cache_release`. -/
def obtained : Pc → Option Ptr
  | .joining _ (.logHit p) => some p
  | .streaming p _ _ => some p
  | .fetching _ p _ _ _ => some p
  | .releasing p _ .lockTable => some p
  | .releasing p _ .decrement => some p
  | _ => none

/-- The role of a worker holds what the worker has obtained. -/
theorem held_role (pc : Pc) : (role pc).held = obtained pc := by
  cases pc with
  | idle => rfl
  | reading buf => rfl
  | joining request point => cases point <;> rfl
  | streaming p offset point => rfl
  | fetching request p total alive point =>
      cases point with
      | lockMark complete => cases complete <;> rfl
      | mark complete => cases complete <;> rfl
      | _ => rfl
  | releasing p amWriter point =>
      cases point with
      | lockTable => cases amWriter <;> rfl
      | decrement => cases amWriter <;> rfl
      | _ => rfl

section Releasing

variable {t : CacheTable} {answers : Answers} {effect : Effect} {p : Ptr} {amWriter : Bool}
  {point : ReleasePoint} (there : effect.pc = .releasing p amWriter point)

include there

/-- No lookup leads into a release. -/
theorem stepJoin_not_releasing {request : Request} {spot : JoinPoint}
    (moved : stepJoin t request answers spot = some effect) : False := by
  have joined : ∀ result, (afterJoin request result).pc ≠ .releasing p amWriter point := by
    rintro ⟨t', _ | ⟨q, _ | _⟩⟩ <;> simp [afterJoin]
  cases spot with
  | search =>
      simp only [stepJoin] at moved
      split at moved
      · cases moved
      · obtain rfl := Option.some.inj moved
        exact joined _ there
      · obtain rfl := Option.some.inj moved
        cases there
  | readFailed q =>
      obtain ⟨e, found, rfl⟩ := Option.map_eq_some_iff.mp moved
      cases there
  | decide q isFailed =>
      obtain ⟨result, decided, rfl⟩ := Option.map_eq_some_iff.mp moved
      exact joined _ there
  | _ =>
      obtain rfl := Option.some.inj moved
      cases there

/-- A reader comes to the beginning of its release. -/
theorem stepStream_releasing {q : Ptr} {offset : Nat} {spot : StreamPoint}
    (moved : stepStream t q offset answers spot = some effect) : point = .lockTable := by
  cases spot with
  | pass =>
      obtain ⟨e, found, rfl⟩ := Option.map_eq_some_iff.mp moved
      dsimp only at there
      split at there
      · cases there
      · exact (Pc.releasing.inj there).2.2.symm
      · exact (Pc.releasing.inj there).2.2.symm
      · split at there <;> cases there
  | send left =>
      obtain rfl := Option.some.inj moved
      dsimp only at there
      split at there
      · cases there
      · cases there
      · exact (Pc.releasing.inj there).2.2.symm
  | _ =>
      obtain rfl := Option.some.inj moved
      cases there

/-- So does a writer. -/
theorem stepFetch_releasing {request : Request} {q : Ptr} {total : Nat} {alive : Bool}
    {spot : FetchPoint} (moved : stepFetch t request q total alive answers spot = some effect) :
    point = .lockTable := by
  cases spot with
  | recv =>
      simp only [stepFetch] at moved
      split at moved
      · obtain rfl := Option.some.inj moved
        cases there
      · obtain rfl := Option.some.inj moved
        cases there
      · obtain rfl := Option.some.inj moved
        cases there
      · obtain rfl := Option.some.inj moved
        cases there
      · obtain ⟨block, given, rfl⟩ := Option.map_eq_some_iff.mp moved
        cases there
  | append block =>
      obtain ⟨e, found, rfl⟩ := Option.map_eq_some_iff.mp moved
      cases there
  | relay left =>
      obtain rfl := Option.some.inj moved
      dsimp only at there
      split at there <;> cases there
  | mark complete =>
      obtain ⟨e, found, rfl⟩ := Option.map_eq_some_iff.mp moved
      exact (Pc.releasing.inj there).2.2.symm
  | _ =>
      obtain rfl := Option.some.inj moved
      cases there

/-- `cache_release` goes on with the same entry. -/
theorem stepRelease_releasing {q : Ptr} {writer : Bool} {spot : ReleasePoint}
    (moved : stepRelease t q writer spot = some effect) : q = p ∧ writer = amWriter := by
  cases spot with
  | decrement =>
      obtain ⟨e, found, rfl⟩ := Option.map_eq_some_iff.mp moved
      split_ifs at there
      · exact ⟨(Pc.releasing.inj there).1, (Pc.releasing.inj there).2.1⟩
      · exact ⟨(Pc.releasing.inj there).1, (Pc.releasing.inj there).2.1⟩
  | readFlags =>
      obtain ⟨e, found, rfl⟩ := Option.map_eq_some_iff.mp moved
      exact ⟨(Pc.releasing.inj there).1, (Pc.releasing.inj there).2.1⟩
  | decide keep =>
      cases keep with
      | true =>
          obtain rfl := Option.some.inj moved
          exact ⟨(Pc.releasing.inj there).1, (Pc.releasing.inj there).2.1⟩
      | false =>
          obtain ⟨e, found, moved⟩ := Option.bind_eq_some_iff.mp moved
          obtain ⟨t', unlinked, rfl⟩ := Option.map_eq_some_iff.mp moved
          exact ⟨(Pc.releasing.inj there).1, (Pc.releasing.inj there).2.1⟩
  | logCount =>
      obtain rfl := Option.some.inj moved
      cases there
  | logKeep =>
      obtain rfl := Option.some.inj moved
      cases there
  | destroy =>
      obtain rfl := Option.some.inj moved
      cases there
  | _ =>
      obtain rfl := Option.some.inj moved
      exact ⟨(Pc.releasing.inj there).1, (Pc.releasing.inj there).2.1⟩

/-- A handler comes to `cache_release` only at its start. -/
theorem advance_releasing {pc : Pc} (moved : advance t answers pc = some effect) :
    point = .lockTable ∨ ∃ before, pc = .releasing p amWriter before := by
  cases pc with
  | idle =>
      obtain rfl := Option.some.inj moved
      cases there
  | reading buf =>
      rcases stepRead_cases moved with rfl | ⟨more, rfl⟩ | ⟨request, rfl⟩ <;> cases there
  | joining request spot => exact (stepJoin_not_releasing there moved).elim
  | streaming q offset spot => exact .inl (stepStream_releasing there moved)
  | fetching request q total alive spot => exact .inl (stepFetch_releasing there moved)
  | releasing q writer spot =>
      obtain ⟨rfl, rfl⟩ := stepRelease_releasing there moved
      exact .inr ⟨spot, rfl⟩

end Releasing

/-- Who is about to log a count has just decremented it; who is about to log that an
entry is kept has just decided so. -/
theorem stepRelease_logging {t : CacheTable} {p : Ptr} {amWriter : Bool}
    {before point : ReleasePoint} {effect : Effect}
    (moved : stepRelease t p amWriter before = some effect)
    (there : effect.pc = .releasing p amWriter point) :
    (point = .logCount → ∃ e, effect.table.heap p = some e) ∧
      (point = .logKeep → before = .decide true ∧ effect.table = t) := by
  cases before with
  | decrement =>
      obtain ⟨e, found, rfl⟩ := Option.map_eq_some_iff.mp moved
      split_ifs at there ⊢ with more <;> obtain ⟨_, _, rfl⟩ := Pc.releasing.inj there
      · have counted : (t.decrement p).heap p = some (e.withRefcnt (e.refcnt - 1)) := by
          simp [CacheTable.decrement, CacheTable.modify, found]
        exact ⟨fun _ => ⟨_, counted⟩, by simp⟩
      · exact ⟨by simp, by simp⟩
  | readFlags =>
      obtain ⟨e, found, rfl⟩ := Option.map_eq_some_iff.mp moved
      obtain ⟨_, _, rfl⟩ := Pc.releasing.inj there
      exact ⟨by simp, by simp⟩
  | decide keep =>
      cases keep with
      | true =>
          obtain rfl := Option.some.inj moved
          obtain ⟨_, _, rfl⟩ := Pc.releasing.inj there
          exact ⟨by simp, fun _ => ⟨rfl, rfl⟩⟩
      | false =>
          obtain ⟨e, found, moved⟩ := Option.bind_eq_some_iff.mp moved
          obtain ⟨t', unlinked, rfl⟩ := Option.map_eq_some_iff.mp moved
          obtain ⟨_, _, rfl⟩ := Pc.releasing.inj there
          exact ⟨by simp, by simp⟩
  | logCount =>
      obtain rfl := Option.some.inj moved
      cases there
  | logKeep =>
      obtain rfl := Option.some.inj moved
      cases there
  | destroy =>
      obtain rfl := Option.some.inj moved
      cases there
  | _ =>
      obtain rfl := Option.some.inj moved
      obtain ⟨_, _, rfl⟩ := Pc.releasing.inj there
      exact ⟨by simp, by simp⟩

/-- How a worker comes to the log messages of its release. -/
theorem advance_logging {t : CacheTable} {answers : Answers} {pc : Pc} {effect : Effect}
    {p : Ptr} {amWriter : Bool} {point : ReleasePoint} (moved : advance t answers pc = some effect)
    (there : effect.pc = .releasing p amWriter point) :
    (point = .logCount → ∃ e, effect.table.heap p = some e) ∧
      (point = .logKeep → pc = .releasing p amWriter (.decide true) ∧ effect.table = t) := by
  rcases advance_releasing there moved with rfl | ⟨before, rfl⟩
  · exact ⟨by simp, by simp⟩
  · obtain ⟨counts, keeps⟩ := stepRelease_logging moved there
    exact ⟨counts, fun same => ⟨congrArg _ (keeps same).1, (keeps same).2⟩⟩

/-- The entries whose fields, lock or condition variable the next step touches, at
most. Searching and unlinking walk a chain. -/
def accesses (t : CacheTable) : Pc → List Ptr
  | .idle => []
  | .reading _ => []
  | .joining _ .lockTable => []
  | .joining request .search => t.chain (t.index request.key)
  | .joining _ (.lockEntry p) => [p]
  | .joining _ (.readFailed p) => [p]
  | .joining request (.decide p _) => p :: t.chain (t.index request.key)
  | .joining _ (.logHit p) => [p]
  | .streaming _ _ (.send _) => []
  | .streaming p _ _ => [p]
  | .fetching _ p _ _ (.lockAppend _) => [p]
  | .fetching _ p _ _ (.append _) => [p]
  | .fetching _ p _ _ (.lockMark _) => [p]
  | .fetching _ p _ _ (.mark _) => [p]
  | .fetching _ _ _ _ _ => []
  | .releasing _ _ .lockTable => []
  | .releasing _ _ (.decide true) => []
  | .releasing p _ (.decide false) =>
      p :: ((t.heap p).map fun e => t.chain (t.index e.key)).getD []
  | .releasing p _ _ => [p]

/-- A handler touches linked entries, the one it deals with, the one it frees, and
behind the unlock of `cache_release` the one it logs. -/
theorem accesses_cases {t : CacheTable} (positive : 0 < t.nbuckets) {pc : Pc} {p : Ptr}
    (member : p ∈ accesses t pc) :
    t.Linked p ∨ Concerns pc p ∨ role pc = .reclaiming p ∨
      ∃ amWriter, pc = .releasing p amWriter .logCount ∨ pc = .releasing p amWriter .logKeep := by
  have chained : ∀ key, p ∈ t.chain (t.index key) → t.Linked p := fun key inside =>
    ⟨t.index key, CacheTable.index_lt positive key, inside⟩
  have held : ∀ q, p ∈ [q] → obtained pc = some q → Concerns pc p := by
    intro q same holds
    obtain rfl := List.mem_singleton.mp same
    exact .inl ((held_role pc).trans holds)
  cases pc with
  | idle => cases member
  | reading buf => cases member
  | joining request point =>
      cases point with
      | lockTable => cases member
      | search => exact .inl (chained request.key member)
      | lockEntry q => exact .inr (.inl (.inr (congrArg some (List.mem_singleton.mp member).symm)))
      | readFailed q => exact .inr (.inl (.inr (congrArg some (List.mem_singleton.mp member).symm)))
      | decide q isFailed =>
          rcases List.mem_cons.mp member with rfl | inside
          · exact .inr (.inl (.inr rfl))
          · exact .inl (chained request.key inside)
      | logHit q => exact .inr (.inl (held q member rfl))
  | streaming q offset point =>
      cases point with
      | send left => cases member
      | _ => exact .inr (.inl (held q member rfl))
  | fetching request q total alive point =>
      cases point with
      | lockAppend block => exact .inr (.inl (held q member rfl))
      | append block => exact .inr (.inl (held q member rfl))
      | lockMark complete => exact .inr (.inl (held q member rfl))
      | mark complete => exact .inr (.inl (held q member rfl))
      | _ => cases member
  | releasing q amWriter point =>
      cases point with
      | lockTable => cases member
      | decrement => exact .inr (.inl (held q member rfl))
      | decide keep =>
          cases keep with
          | true => cases member
          | false =>
              rcases List.mem_cons.mp member with rfl | inside
              · exact .inr (.inl (.inr rfl))
              · cases found : t.heap q with
                | none => simp [found] at inside
                | some e => exact .inl (chained e.key (by simpa [found] using inside))
      | _ =>
          obtain rfl := List.mem_singleton.mp member
          first
          | exact .inr (.inl (.inr rfl))
          | exact .inr (.inr (.inl rfl))
          | exact .inr (.inr (.inr ⟨amWriter, .inl rfl⟩))
          | exact .inr (.inr (.inr ⟨amWriter, .inr rfl⟩))

/-- The answers of a client that sends one short request and hangs up, and of an
origin that refuses the connection. Memory is there. -/
def refusal : Answers where
  recv := .bytes (ascii "GET / HTTP/1.0\r\nHost: a\r\n\r\n")
  send := .failed
  connect := false
  create := .ok
  realloc := some fun _ => 0

namespace World

variable {ι : Type*} [DecidableEq ι] [Fintype ι] {w next : World ι} {i : ι} {answers : Answers}

omit [DecidableEq ι] in
/-- Only `cache_release` destroys entries. -/
theorem Local.destroying (here : w.Local) (sound : Sound w.view) {p : Ptr}
    (frees : destroys w.table (w.pc i) = some p) :
    ∃ amWriter, w.pc i = .releasing p amWriter .destroy := by
  have reclaiming := here.reclaiming_of_destroys sound frees
  cases place : w.pc i with
  | idle => simp [place, role] at reclaiming
  | reading buf => simp [place, role] at reclaiming
  | joining request point => cases point <;> simp [place, role] at reclaiming
  | streaming q offset point => simp [place, role] at reclaiming
  | fetching request q total alive point => simp [place, destroys] at frees
  | releasing q amWriter point =>
      cases point with
      | destroy =>
          rw [place] at frees
          exact ⟨amWriter, Option.some.inj frees ▸ rfl⟩
      | _ => simp [place, destroys] at frees

/-- The entry passed to `cache_entry_destroy` is gone behind the step. -/
theorem Local.destroyed (here : w.Local) (sound : Sound w.view) {p : Ptr}
    (frees : destroys w.table (w.pc i) = some p) (stepped : w.step (i, answers) = some next) :
    next.table.Destroyed p := by
  obtain ⟨amWriter, place⟩ := here.destroying sound frees
  obtain ⟨⟨it, present⟩, _, _⟩ := sound.reclaiming_free (here.reclaiming_of_destroys sound frees)
  obtain ⟨e, found, _⟩ := Option.map_eq_some_iff.mp present
  obtain ⟨effect, moved, _, rfl⟩ := step_eq_some_iff.mp stepped
  rw [place] at moved
  obtain rfl := Option.some.inj moved
  refine ⟨here.linked.lt_fresh found, ?_⟩
  simp [World.apply, CacheTable.cacheEntryDestroy]

omit [Fintype ι] in
/-- A destroyed entry stays destroyed. -/
theorem destroyed_step {p : Ptr} (gone : w.table.Destroyed p)
    (stepped : w.step (i, answers) = some next) : next.table.Destroyed p := by
  obtain ⟨effect, moved, _, rfl⟩ := step_eq_some_iff.mp stepped
  have later := (advance_touches moved).descends
  refine ⟨gone.1.trans_le later.fresh, ?_⟩
  by_contra there
  obtain ⟨f, found⟩ := Option.ne_none_iff_exists'.mp there
  rcases later.born p f found with ⟨e, before⟩ | ⟨newest, _⟩
  · rw [gone.2] at before
    cases before
  · exact absurd gone.1 (newest ▸ lt_irrefl _)

/-- The count of an entry is the number of handlers that hold it. -/
theorem refcnt_eq_card (reached : Transition.Reaches step (start ι) w) {p : Ptr} {e : CacheEntry}
    (found : w.table.heap p = some e) :
    e.refcnt = (Finset.univ.filter fun j => obtained (w.pc j) = some p).card := by
  obtain ⟨_, sound⟩ := sound_of_reaches reached
  have counted := sound.counted p (item e) (view_item found)
  have same : (fun j => (w.view.role j).held) = fun j => obtained (w.pc j) :=
    funext fun j => held_role (w.pc j)
  rw [same] at counted
  exact counted

/-- Where an `int` can count the workers, no count of an entry overflows. -/
theorem countsInt_of_reaches (workers : (Fintype.card ι : Int) ≤ intMax)
    (reached : Transition.Reaches step (start ι) w) : w.table.CountsInt := by
  intro p e found
  have most : (Finset.univ.filter fun j => obtained (w.pc j) = some p).card ≤ Fintype.card ι :=
    Finset.card_le_univ _
  unfold CacheEntry.CountsInt
  rw [refcnt_eq_card reached found]
  unfold intMin intMax at *
  omega

/-- **References are exact and own the entry.** In every reachable state the count
of an entry is the number of handlers that obtained it and have not given it up, and
a held entry is linked in the bucket of its key. What a handler destroys is
allocated, unlinked and held by nobody, and nobody destroys it again later. -/
theorem references_exact (reached : Transition.Reaches step (start ι) w) :
    (∀ p e, w.table.heap p = some e →
      e.refcnt = (Finset.univ.filter fun j => obtained (w.pc j) = some p).card) ∧
    (∀ j p, obtained (w.pc j) = some p →
      ∃ e, w.table.heap p = some e ∧ p ∈ w.table.chain (w.table.index e.key)) ∧
    ∀ j p, destroys w.table (w.pc j) = some p →
      (∃ e, w.table.heap p = some e) ∧ ¬ w.table.Linked p ∧
      (∀ k, obtained (w.pc k) ≠ some p) ∧
      ∀ answers next, w.step (j, answers) = some next →
        ∀ later, Transition.Reaches step next later →
          ∀ k, destroys later.table (later.pc k) ≠ some p := by
  obtain ⟨here, sound⟩ := sound_of_reaches reached
  refine ⟨fun p e found => refcnt_eq_card reached found, fun j p holds => ?_,
    fun j p frees => ?_⟩
  · have member : w.table.Linked p := sound.listing.held_listed j p ((held_role _).trans holds)
    obtain ⟨e, found⟩ := here.linked.allocated member
    exact ⟨e, found, here.linked.mem_chain member found⟩
  · obtain ⟨⟨it, present⟩, out, free⟩ :=
      sound.reclaiming_free (here.reclaiming_of_destroys sound frees)
    obtain ⟨e, found, _⟩ := Option.map_eq_some_iff.mp present
    refine ⟨⟨e, found⟩, out, fun k holds => free k ((held_role _).trans holds), ?_⟩
    intro answers next stepped later reached' k frees'
    have gone : later.table.Destroyed p :=
      reached'.invariant (motive := fun w => w.table.Destroyed p)
        (here.destroyed sound frees stepped) fun _ _ _ before _ moved => destroyed_step before moved
    obtain ⟨here', sound'⟩ := sound_of_reaches ((reached.next _ stepped).trans reached')
    obtain ⟨⟨it', present'⟩, _, _⟩ :=
      sound'.reclaiming_free (here'.reclaiming_of_destroys sound' frees')
    obtain ⟨f, there, _⟩ := Option.map_eq_some_iff.mp present'
    rw [gone.2] at there
    cases there

/-- The theorem at two clients of one answer, of which the second joined. -/
theorem references_exact_run :
    ∃ (w : World Bool) (e : CacheEntry), Transition.run step (start Bool)
      (List.replicate 4 (true, refusal) ++ List.replicate 7 (false, refusal)) = some w ∧
      w.table.heap 0 = some e ∧ e.refcnt = 2 ∧
      ((Finset.univ.filter fun j => obtained (w.pc j) = some 0).card : Int) = 2 := by
  obtain ⟨e, found, two⟩ := Option.map_eq_some_iff.mp (show ((Transition.run step (start Bool)
    (List.replicate 4 (true, refusal) ++ List.replicate 7 (false, refusal))).bind fun w =>
      w.table.heap 0).map CacheEntry.refcnt = some 2 by decide +kernel)
  obtain ⟨w, ran, here⟩ := Option.bind_eq_some_iff.mp found
  exact ⟨w, e, ran, here, two, ((references_exact (.of_run ran .start)).1 0 e here).symm.trans two⟩

/-! ## Accesses behind the unlock -/

/-- The step frees no entry whose count another handler is about to log. -/
def SparesLogs (w : World ι) (label : ι × Answers) : Prop := ∀ p,
  destroys w.table (w.pc label.1) = some p →
    ∀ j amWriter, w.pc j ≠ .releasing p amWriter .logCount

/-- What a handler logs behind the unlock of `cache_release` is there. -/
structure Logged (w : World ι) : Prop where
  counts : ∀ j p amWriter, w.pc j = .releasing p amWriter .logCount →
    ∃ e, w.table.heap p = some e
  keeps : ∀ j p amWriter, w.pc j = .releasing p amWriter .logKeep → ∃ key, Good w.view p key

/-- **The step lemma** where nobody reads a log message from a freed entry. -/
theorem Logged.step (logged : w.Logged) (here : w.Local) (sound : Sound w.view)
    (spares : w.SparesLogs (i, answers)) (stepped : w.step (i, answers) = some next) :
    next.Logged := by
  obtain ⟨_, view⟩ := here.step sound stepped
  have stays : ∀ p key, Good w.view p key → Good next.view p key := by
    intro p key good
    rcases view with same | moves
    · exact same ▸ good
    · exact good.move sound moves
  obtain ⟨effect, moved, _, rfl⟩ := step_eq_some_iff.mp stepped
  -- a handler at a log line that did not move was there before
  have before : ∀ j p amWriter point, j ≠ i →
      (w.apply i effect).pc j = .releasing p amWriter point →
        w.pc j = .releasing p amWriter point := by
    intro j p amWriter point other place
    rw [apply_pc_of_ne w effect other] at place
    rcases rouse_cases effect.broadcast (w.pc j) with ⟨q, offset, _, _, woken⟩ | ⟨same, _⟩
    · rw [woken] at place
      cases place
    · exact same ▸ place
  have mine := w.apply_pc_self i effect
  refine ⟨fun j p amWriter place => ?_, fun j p amWriter place => ?_⟩
  · by_cases same : j = i
    · subst same
      exact (advance_logging moved (mine.symm.trans place)).1 rfl
    · have was := before j p amWriter _ same place
      obtain ⟨e, found⟩ := logged.counts j p amWriter was
      have kept := (advance_touches moved).preserves here.linked.bounded
        fun frees => spares p frees j amWriter was
      obtain ⟨f, there, _⟩ := kept e found
      exact ⟨f, there⟩
  · by_cases same : j = i
    · subst same
      obtain ⟨decided, table⟩ := (advance_logging moved (mine.symm.trans place)).2 rfl
      have known := here.asserts j
      rw [decided] at known
      obtain ⟨e, found, flags⟩ := known
      have retiring : w.view.role j = .retiring p := congrArg role decided
      obtain ⟨complete, sane⟩ : e.complete = true ∧ e.failed = false := by
        simpa using flags.symm
      exact ⟨e.key, stays p e.key ⟨sound.listing.inside_listed j p (by rw [retiring]; rfl),
        item e, view_item found, rfl, complete, sane⟩⟩
    · obtain ⟨key, good⟩ := logged.keeps j p amWriter (before j p amWriter _ same place)
      exact ⟨key, stays p key good⟩

/-- No step touches an entry that was passed to `cache_entry_destroy`. -/
def NoAccessAfterDestroy (w : World ι) : Prop :=
  ∀ i, ∀ p ∈ accesses w.table (w.pc i), ¬ w.table.Destroyed p

omit [DecidableEq ι] in
/-- Where every log message reads an entry that is there, nobody accesses a freed one. -/
theorem Logged.noAccess (logged : w.Logged) (here : w.Local) (sound : Sound w.view) :
    w.NoAccessAfterDestroy := by
  intro i p member
  suffices ∃ e, w.table.heap p = some e by
    obtain ⟨e, found⟩ := this
    rintro ⟨_, gone⟩
    rw [found] at gone
    cases gone
  rcases accesses_cases here.linked.nonempty member with
    linked | (holds | within) | reclaiming | ⟨amWriter, counts | keeps⟩
  · exact here.linked.allocated linked
  · exact here.linked.allocated (sound.listing.held_listed i p holds)
  · exact here.linked.allocated (sound.listing.inside_listed i p within)
  · obtain ⟨it, present⟩ := (sound.reclaiming_free reclaiming).1
    obtain ⟨e, found, _⟩ := Option.map_eq_some_iff.mp present
    exact ⟨e, found⟩
  · exact logged.counts i p amWriter counts
  · obtain ⟨key, listed, _⟩ := logged.keeps i p amWriter keeps
    exact here.linked.allocated listed

/-- Freeing an entry whose count another handler is about to log exposes it. -/
theorem Local.exposed (here : w.Local) (sound : Sound w.view)
    (stepped : w.step (i, answers) = some next) (careless : ¬ w.SparesLogs (i, answers)) :
    ¬ next.NoAccessAfterDestroy := by
  intro safe
  simp only [SparesLogs, not_forall, not_not] at careless
  obtain ⟨p, frees, j, amWriter, logs⟩ := careless
  obtain ⟨writer, place⟩ := here.destroying sound frees
  have gone := here.destroyed sound frees stepped
  obtain ⟨effect, moved, _, rfl⟩ := step_eq_some_iff.mp stepped
  have other : j ≠ i := by
    rintro rfl
    rw [place] at logs
    cases logs
  refine safe j p ?_ gone
  rw [apply_pc_of_ne w effect other, logs]
  cases effect.broadcast <;> exact List.mem_singleton_self p

/-- **No access after destroy**, exactly as long as no entry is freed while another
handler is about to log its count: along a run that frees none so, no step touches
an entry that was passed to `cache_entry_destroy`, and the first step that frees one
so leads to such an access. -/
theorem noAccessAfterDestroy_iff (reached : Transition.ReachesBy step SparesLogs (start ι) w) :
    w.NoAccessAfterDestroy ∧ ∀ label next, w.step label = some next →
      (next.NoAccessAfterDestroy ↔ w.SparesLogs label) := by
  obtain ⟨⟨here, sound⟩, logged⟩ := Local.start.invariant sound_start (motive := Logged)
    (by constructor <;> simp [start])
    (fun v i answers next here sound logged spares stepped =>
      logged.step here sound spares stepped) reached
  refine ⟨logged.noAccess here sound, ?_⟩
  rintro ⟨i, answers⟩ next stepped
  refine ⟨fun safe => ?_, fun spares => ?_⟩
  · by_contra careless
    exact here.exposed sound stepped careless safe
  · obtain ⟨here', sound'⟩ := here.step_sound sound stepped
    exact (logged.step here sound spares stepped).noAccess here' sound'

/-- Two clients of one answer: the writer fails and is about to log the count it left,
the reader has unlinked the entry and is about to destroy it. -/
def lateLog : List (Bool × Answers) :=
  List.replicate 4 (true, refusal) ++ List.replicate 7 (false, refusal) ++
    List.replicate 6 (true, refusal) ++ List.replicate 9 (false, refusal)

/-- The theorem at two clients of one answer: nothing destroyed is touched until the
reader destroys the entry that the writer logs. -/
theorem noAccessAfterDestroy_iff_run :
    ∃ w next : World Bool, Transition.ReachesBy step SparesLogs (start Bool) w ∧
      w.NoAccessAfterDestroy ∧ w.step (false, refusal) = some next ∧
      ¬ next.NoAccessAfterDestroy := by
  have places : (Transition.run (Transition.guarded step fun w label =>
      (destroys w.table (w.pc label.1)).isNone) (start Bool) lateLog).map (fun w =>
        (w.pc true, w.pc false, (w.step (false, refusal)).isSome)) =
      some (.releasing 0 true .logCount, .releasing 0 false .destroy, true) := by decide +kernel
  obtain ⟨w, ran, equal⟩ := Option.map_eq_some_iff.mp places
  simp only [Prod.mk.injEq] at equal
  obtain ⟨logs, frees, enabled⟩ := equal
  obtain ⟨next, stepped⟩ := Option.isSome_iff_exists.mp enabled
  have reached : Transition.ReachesBy step SparesLogs (start Bool) w :=
    .of_guarded ran (fun w label none p some => by simp [some] at none) .start
  obtain ⟨safe, exact⟩ := noAccessAfterDestroy_iff reached
  refine ⟨w, next, reached, safe, stepped, fun still => ?_⟩
  exact (exact _ next stepped).mp still 0 (by rw [frees]; rfl) true true logs

/-- A writer whose fetch failed drops its reference, the reader drops the last one and
frees the entry, and only then the writer logs its key and count. -/
theorem count_logged_after_destroy :
    ∃ w next : World Bool, Transition.Reaches step (start Bool) w ∧
      w.pc true = .releasing 0 true .logCount ∧ 0 ∈ accesses w.table (w.pc true) ∧
      w.table.Destroyed 0 ∧ w.step (true, refusal) = some next := by
  have places : (Transition.run step (start Bool) (lateLog ++ [(false, refusal)])).map (fun w =>
      (w.pc true, w.table.fresh, (w.table.heap 0).isNone, (w.step (true, refusal)).isSome)) =
      some (.releasing 0 true .logCount, 1, true, true) := by decide +kernel
  obtain ⟨w, ran, equal⟩ := Option.map_eq_some_iff.mp places
  simp only [Prod.mk.injEq] at equal
  obtain ⟨logs, fresh, gone, enabled⟩ := equal
  obtain ⟨next, stepped⟩ := Option.isSome_iff_exists.mp enabled
  refine ⟨w, next, .of_run ran .start, logs, ?_, ⟨?_, Option.isNone_iff_eq_none.mp gone⟩, stepped⟩
  · rw [logs]
    exact List.mem_singleton_self 0
  · rw [fresh]
    exact Nat.zero_lt_one

end World

end OperationSystems.Proxy
