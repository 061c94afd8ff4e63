import OperationSystems.Proxy.SingleFlight

/-!
# Nobody waits for ever

A reader sleeps only while its entry has a writer that has not marked it, so a
wake-up is still to come. A worker takes an entry lock inside the table lock and
never the other way round, and waits for nothing inside an entry lock, so the
handlers cannot all be blocked at once.
-/

namespace OperationSystems.Proxy

open CStrings Cache SharedRegistry

/-- The lock that the next step takes. -/
def wanted : Pc → Option Lock
  | .joining _ .lockTable => some .table
  | .joining _ (.lockEntry p) => some (.entry p)
  | .streaming p _ .lockEntry => some (.entry p)
  | .fetching _ p _ _ (.lockAppend _) => some (.entry p)
  | .fetching _ p _ _ (.lockMark _) => some (.entry p)
  | .releasing _ _ .lockTable => some .table
  | .releasing p _ .lockEntry => some (.entry p)
  | _ => none

/-- A worker sleeps on the condition variable of an entry. -/
def Asleep (pc : Pc) : Prop := ∃ p offset, pc = .streaming p offset .wait

/-- Inside an entry lock a handler waits for nothing. -/
theorem wanted_of_entry {pc : Pc} {p : Ptr} (holds : .entry p ∈ holding pc) :
    wanted pc = none ∧ ¬ Asleep pc := by
  unfold Asleep
  cases pc with
  | idle => cases holds
  | reading buf => cases holds
  | joining request point => cases point <;> simp [holding, wanted] at holds ⊢
  | streaming q offset point => cases point <;> simp [holding, wanted] at holds ⊢
  | fetching request q total alive point => cases point <;> simp [holding, wanted] at holds ⊢
  | releasing q amWriter point => cases point <;> simp [holding, wanted] at holds ⊢

/-- Inside the table lock a handler waits for entry locks only. -/
theorem wanted_of_table {pc : Pc} (holds : .table ∈ holding pc) :
    wanted pc ≠ some .table ∧ ¬ Asleep pc := by
  unfold Asleep
  cases pc with
  | idle => cases holds
  | reading buf => cases holds
  | joining request point => cases point <;> simp [holding, wanted] at holds ⊢
  | streaming q offset point => cases point <;> simp [holding] at holds
  | fetching request q total alive point => cases point <;> simp [holding] at holds
  | releasing q amWriter point => cases point <;> simp [holding, wanted] at holds ⊢

/-- A worker that fetches an entry has not marked it yet. -/
theorem role_fetching (request : Request) (p : Ptr) (total : Nat) (alive : Bool)
    (point : FetchPoint) :
    role (.fetching request p total alive point) = .producer p ∨
      role (.fetching request p total alive point) = .quitter p := by
  cases point with
  | badGateway left => exact .inr rfl
  | lockMark complete => cases complete <;> simp [role]
  | mark complete => cases complete <;> simp [role]
  | _ => exact .inl rfl

/-- A worker that has not marked its entry yet is fetching it. -/
theorem fetching_of_role {pc : Pc} {p : Ptr}
    (works : role pc = .producer p ∨ role pc = .quitter p) :
    ∃ request total alive point, pc = .fetching request p total alive point := by
  cases pc with
  | idle => simp [role] at works
  | reading buf => simp [role] at works
  | joining request point => cases point <;> simp [role] at works
  | streaming q offset point => simp [role] at works
  | fetching request q total alive point =>
      have same : q = p := by
        have held : (role (.fetching request q total alive point)).held = some p := by
          rcases works with was | was <;> rw [was] <;> rfl
        exact Option.some.inj ((held_role _).symm.trans held)
      exact ⟨request, total, alive, point, same ▸ rfl⟩
  | releasing q amWriter point => cases point <;> cases amWriter <;> simp [role] at works

namespace World

variable {ι : Type*} {w next : World ι} {i : ι} {answers : Answers}

/-- A worker waits on a condition variable or for a lock that is taken. -/
def Blocked (w : World ι) (i : ι) : Prop :=
  Asleep (w.pc i) ∨ ∃ l, wanted (w.pc i) = some l ∧ w.lock l ≠ none

/-- The owner of an entry lock is not blocked. -/
theorem Owned.entry_not_blocked (owned : w.Owned) {p : Ptr} (owner : w.lock (.entry p) = some i) :
    ¬ w.Blocked i := by
  obtain ⟨free, awake⟩ := wanted_of_entry ((owned _ i).mp owner)
  rintro (asleep | ⟨l, wants, _⟩)
  · exact awake asleep
  · rw [free] at wants
    cases wants

/-- While the entry locks are free, the owner of the table lock is not blocked. -/
theorem Owned.table_not_blocked (owned : w.Owned) (owner : w.lock .table = some i)
    (free : ∀ p, w.lock (.entry p) = none) : ¬ w.Blocked i := by
  obtain ⟨other, awake⟩ := wanted_of_table ((owned _ i).mp owner)
  rintro (asleep | ⟨l, wants, taken⟩)
  · exact awake asleep
  · cases l with
    | table => exact other wants
    | entry p => exact taken (free p)

/-- The owner of a lock is inside `handle_client`. -/
theorem Owned.inside (owned : w.Owned) {l : Lock} (owner : w.lock l = some i) : w.pc i ≠ .idle := by
  intro idle
  have holds := (owned l i).mp owner
  rw [idle] at holds
  cases holds

variable [DecidableEq ι] [Fintype ι]

omit [DecidableEq ι] in
/-- A sleeping reader has seen everything stored, and the writer of its entry is
another worker that has not marked it. -/
theorem Local.asleep (here : w.Local) (sound : Sound w.view) {p : Ptr} {offset : Nat}
    (place : w.pc i = .streaming p offset .wait) :
    ∃ e, w.table.heap p = some e ∧ offset = e.size ∧ e.complete = false ∧ e.failed = false ∧
      ∃ j request total alive point, j ≠ i ∧ w.pc j = .fetching request p total alive point := by
  have known := here.asserts i
  rw [place] at known
  obtain ⟨e, found, finish, complete, sane⟩ := known
  obtain ⟨j, works⟩ := sound.marking.pending p (item e) (view_item found) complete sane
  obtain ⟨request, total, alive, point, fetches⟩ := fetching_of_role works
  refine ⟨e, found, finish, complete, sane, j, request, total, alive, point, ?_, fetches⟩
  rintro rfl
  rw [place] at fetches
  cases fetches

omit [DecidableEq ι] in
/-- The handlers are never all blocked. -/
theorem Local.exists_not_blocked (here : w.Local) (sound : Sound w.view) (inside : w.pc i ≠ .idle) :
    ∃ j, w.pc j ≠ .idle ∧ ¬ w.Blocked j := by
  by_cases entries : ∃ p j, w.lock (.entry p) = some j
  · obtain ⟨p, j, owner⟩ := entries
    exact ⟨j, here.owned.inside owner, here.owned.entry_not_blocked owner⟩
  have free : ∀ p, w.lock (.entry p) = none := fun p =>
    Option.eq_none_iff_forall_ne_some.mpr fun j owner => entries ⟨p, j, owner⟩
  cases table : w.lock .table with
  | some j => exact ⟨j, here.owned.inside table, here.owned.table_not_blocked table free⟩
  | none =>
      -- all locks are free, so only sleepers are blocked
      have awake : ∀ j, ¬ Asleep (w.pc j) → ¬ w.Blocked j := by
        rintro j awake (asleep | ⟨l, _, taken⟩)
        · exact awake asleep
        · cases l with
          | table => exact taken table
          | entry p => exact taken (free p)
      by_cases asleep : Asleep (w.pc i)
      · obtain ⟨p, offset, place⟩ := asleep
        obtain ⟨_, _, _, _, _, j, request, total, alive, point, _, fetches⟩ :=
          here.asleep sound place
        refine ⟨j, by rw [fetches]; simp, awake j ?_⟩
        rintro ⟨q, other, sleeps⟩
        rw [fetches] at sleeps
        cases sleeps
      · exact ⟨i, inside, awake i asleep⟩

omit [DecidableEq ι] in
/-- No handler is stuck in a fault: with every socket closed it has a next step, which
takes no lock but the one it waits for. -/
theorem Local.advances (here : w.Local) (sound : Sound w.view) (closed : answers.recv = .closed) :
    ∃ effect, advance w.table answers (w.pc i) = some effect ∧
      ∀ l, effect.acquire = some l → wanted (w.pc i) = some l := by
  have held : ∀ p, obtained (w.pc i) = some p → ∃ e, w.table.heap p = some e := fun p holds =>
    here.linked.allocated (sound.listing.held_listed i p ((held_role _).trans holds))
  have within : ∀ p, (role (w.pc i)).inside = some p → ∃ e, w.table.heap p = some e :=
    fun p deals => here.linked.allocated (sound.listing.inside_listed i p deals)
  cases place : w.pc i with
  | idle => exact ⟨_, rfl, by simp⟩
  | reading buf =>
      refine ⟨{ pc := .idle, table := w.table }, ?_, by simp⟩
      simp only [advance, stepRead, closed, receive]
  | joining request point =>
      rw [place] at held within
      cases point with
      | lockTable => exact ⟨_, rfl, by simp [wanted]⟩
      | search =>
          rcases here.linked.scan_eq request.key with ⟨p, e, searched, _⟩ | ⟨searched, _⟩
          · refine ⟨{ pc := .joining request (.lockEntry p), table := w.table }, ?_, by simp⟩
            simp only [advance, stepJoin, searched]
          · refine ⟨afterJoin request (w.table.startNew request.key answers.create), ?_,
              by simp [afterJoin]⟩
            simp only [advance, stepJoin, searched]
      | lockEntry p => exact ⟨_, rfl, by simp [wanted]⟩
      | readFailed p =>
          obtain ⟨e, found⟩ := within p rfl
          exact ⟨_, Option.map_eq_some_iff.mpr ⟨e, found, rfl⟩, by simp⟩
      | decide p isFailed =>
          obtain ⟨e, _, _, joins⟩ := here.decideFound_eq sound place answers.create
          exact ⟨_, Option.map_eq_some_iff.mpr ⟨_, joins, rfl⟩, by simp [afterJoin]⟩
      | logHit p => exact ⟨_, rfl, by simp⟩
  | streaming p offset point =>
      rw [place] at held
      cases point with
      | lockEntry => exact ⟨_, rfl, by simp [wanted]⟩
      | pass =>
          obtain ⟨e, found⟩ := held p rfl
          exact ⟨_, Option.map_eq_some_iff.mpr ⟨e, found, rfl⟩, by simp⟩
      | wait => exact ⟨_, rfl, by simp⟩
      | send left => exact ⟨_, rfl, by simp⟩
  | fetching request p total alive point =>
      rw [place] at held
      obtain ⟨e, found⟩ := held p rfl
      cases point with
      | recv =>
          refine ⟨{ pc := .fetching request p total alive (.lockMark true), table := w.table }, ?_,
            by simp⟩
          simp only [advance, stepFetch, closed]
      | append block => exact ⟨_, Option.map_eq_some_iff.mpr ⟨e, found, rfl⟩, by simp⟩
      | mark complete => exact ⟨_, Option.map_eq_some_iff.mpr ⟨e, found, rfl⟩, by simp⟩
      | _ => exact ⟨_, rfl, by simp [wanted]⟩
  | releasing p amWriter point =>
      rw [place] at held within
      cases point with
      | decrement =>
          obtain ⟨e, found⟩ := held p rfl
          refine ⟨_, Option.map_eq_some_iff.mpr ⟨e, found, rfl⟩, ?_⟩
          split_ifs <;> simp
      | readFlags =>
          obtain ⟨e, found⟩ := within p rfl
          exact ⟨_, Option.map_eq_some_iff.mpr ⟨e, found, rfl⟩, by simp⟩
      | decide keep =>
          cases keep with
          | true => exact ⟨_, rfl, by simp⟩
          | false =>
              obtain ⟨e, found⟩ := within p rfl
              have member : w.table.Linked p :=
                sound.listing.inside_listed i p (congrArg (fun pc => (role pc).inside) place)
              obtain ⟨t', unlinked, _⟩ := here.linked.unlink
                (CacheTable.index_lt here.linked.nonempty e.key)
                (here.linked.mem_chain member found)
              exact ⟨_, Option.bind_eq_some_iff.mpr ⟨e, found,
                Option.map_eq_some_iff.mpr ⟨t', unlinked, rfl⟩⟩, by simp⟩
      | _ => exact ⟨_, rfl, by simp [wanted]⟩

/-- **No reader is stranded.** In every reachable state a reader that sleeps and has not
been woken has seen everything stored in an entry that is neither complete nor failed,
and the writer of that entry is at work on another worker and has not marked it. So
whenever a worker is inside `handle_client`, one of those that are is not blocked, and
it can go on. -/
theorem no_reader_stranded (reached : Transition.Reaches step (start ι) w) :
    (∀ i p offset, w.pc i = .streaming p offset .wait →
      ∃ e, w.table.heap p = some e ∧ offset = e.size ∧ e.complete = false ∧ e.failed = false ∧
        ∃ j request total alive point, j ≠ i ∧ w.pc j = .fetching request p total alive point) ∧
    ((∃ i, w.pc i ≠ .idle) → ∃ i, w.pc i ≠ .idle ∧ ¬ w.Blocked i ∧
      ∃ answers next, w.step (i, answers) = some next) := by
  obtain ⟨here, sound⟩ := sound_of_reaches reached
  refine ⟨fun i p offset place => here.asleep sound place, ?_⟩
  rintro ⟨i, inside⟩
  obtain ⟨j, works, awake⟩ := here.exists_not_blocked sound inside
  obtain ⟨effect, moved, wants⟩ := here.advances (i := j) sound (rfl : closing.recv = .closed)
  refine ⟨j, works, awake, closing, w.apply j effect, step_eq_some_iff.mpr ⟨effect, moved, ?_, rfl⟩⟩
  intro l takes
  by_contra taken
  exact awake (.inr ⟨l, wants l takes, taken⟩)

/-- The theorem at a reader that sleeps while the writer waits for the origin. -/
theorem no_reader_stranded_run :
    ∃ w : World Bool, Transition.Reaches step (start Bool) w ∧
      w.pc false = .streaming 0 0 .wait ∧
      ∃ j request total alive point,
        j ≠ false ∧ w.pc j = .fetching request 0 total alive point := by
  have places : (Transition.run step (start Bool) (List.replicate 4 (true, refusal) ++
      List.replicate 2 (true, closing) ++ List.replicate 10 (false, refusal))).map
        (fun w => w.pc false) = some (.streaming 0 0 .wait) := by decide +kernel
  obtain ⟨w, ran, asleep⟩ := Option.map_eq_some_iff.mp places
  have reached : Transition.Reaches step (start Bool) w := .of_run ran .start
  obtain ⟨_, _, _, _, _, writer⟩ := (no_reader_stranded reached).1 false 0 0 asleep
  exact ⟨w, reached, asleep, writer⟩

end World

end OperationSystems.Proxy
