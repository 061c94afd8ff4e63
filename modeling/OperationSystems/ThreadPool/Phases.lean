import OperationSystems.ThreadPool.Queue

/-!
# The phases of the pool

What the thread that creates and stops the pool has already done bounds where the
workers and the submitting threads can be: a worker exits only when the pool stops
and the queue is empty, nobody sleeps once `threadPoolStop` has set `stop`, and the
joins are passed only by workers that have exited.
-/

namespace OperationSystems.ThreadPool

/-- How many workers `threadPoolCreate` has created. -/
def OwnerPc.created (n : ℕ) : OwnerPc → ℕ
  | .begin => 0
  | .create i => i
  | .storeStop i => i
  | .broadcast i => i
  | .joinFailed i _ => i
  | _ => n

/-- `threadPoolCreate` has not returned a pool. -/
def Early : OwnerPc → Prop
  | .begin => True
  | .create _ => True
  | .storeStop _ => True
  | .broadcast _ => True
  | .joinFailed _ _ => True
  | .failed => True
  | _ => False

/-- `threadPoolStop` has set `stop` and given up the lock. -/
def Past : OwnerPc → Prop
  | .join _ => True
  | .drain _ => True
  | .stopped => True
  | _ => False

/-- The error path of `threadPoolCreate` has set `stop`. -/
def Failing : OwnerPc → Prop
  | .broadcast _ => True
  | .joinFailed _ _ => True
  | _ => False

/-- Being woken only turns a sleeper into one that goes for the lock. -/
theorem eq_of_wake {woken : Bool} {pc spot : WorkerPc} (there : wake woken pc = spot)
    (other : spot ≠ .relock) : pc = spot := by
  unfold wake at there
  split_ifs at there
  · exact absurd there.symm other
  · exact there

theorem wake_of_ne {woken : Bool} {pc : WorkerPc} (awake : pc ≠ .asleep) : wake woken pc = pc := by
  unfold wake
  rw [if_neg fun sleeps => awake sleeps.2]

namespace Pool

variable {κ α : Type*} {n : ℕ} {s s' : Pool κ α n}

/-- Where the threads can be in each phase. -/
structure Sane (s : Pool κ α n) : Prop where
  size : s.owner ≠ .begin → s.owner ≠ .failed → 0 < n
  created : s.owner ≠ .failed → ∀ i, s.worker i = .absent ↔ s.owner.created n ≤ i
  unused : ∀ k, (s.caller k).isOutside = false → Usable s.owner
  early : Early s.owner → s.history.accepted = []
  stopping : Failing s.owner ∨ Past s.owner → s.stop = true
  stop_only : s.stop = true → Failing s.owner ∨ Past s.owner ∨ s.owner = .failed
  exited : ∀ i, s.worker i = .exited → s.stop = true ∧ s.head = none
  waits : ∀ i, s.worker i = .wait → s.head = none ∧ ¬ Past s.owner
  sleeps : ∀ i, s.worker i = .asleep → ¬ Past s.owner
  checks : ∀ i, s.worker i = .check → s.stop = true ∨ s.head ≠ none
  takes : ∀ i, s.worker i = .take → s.head ≠ none
  joined : ∀ j, s.owner = .join j → ∀ i : Fin n, i < j → s.worker i = .exited
  drained : ∀ cur, s.owner = .drain cur → cur = none ∧ ∀ i, s.worker i = .exited
  ended : s.owner = .stopped → ∀ i, s.worker i = .exited

theorem Sane.start : (start κ α n).Sane where
  size := fun other => absurd rfl other
  created := fun _ i => iff_of_true rfl (Nat.zero_le i)
  unused := fun k inside => by cases inside
  early := fun _ => rfl
  stopping := fun past => by rcases past with past | past <;> cases past
  stop_only := fun set => by cases set
  exited := fun i there => by cases there
  waits := fun i there => by cases there
  sleeps := fun i there => by cases there
  checks := fun i there => by cases there
  takes := fun i there => by cases there
  joined := fun j there => by cases there
  drained := fun cur there => by cases there
  ended := fun there => by cases there

/-- What must hold where a worker is at a point. -/
def Admits (s : Pool κ α n) : WorkerPc → Prop
  | .exited => s.stop = true ∧ s.head = none
  | .wait => s.head = none ∧ ¬ Past s.owner
  | .asleep => ¬ Past s.owner
  | .check => s.stop = true ∨ s.head ≠ none
  | .take => s.head ≠ none
  | _ => True

/-- What must hold where the owner is at a point. -/
def Awaited (s : Pool κ α n) : OwnerPc → Prop
  | .join j => ∀ i : Fin n, i < j → s.worker i = .exited
  | .drain cur => cur = none ∧ ∀ i, s.worker i = .exited
  | .stopped => ∀ i, s.worker i = .exited
  | _ => True

/-- A worker moves on without touching the queue. -/
theorem Sane.goto (sane : s.Sane) {i : Fin n} {pc : WorkerPc} (owner : s'.owner = s.owner)
    (stop : s'.stop = s.stop) (head : s'.head = s.head) (caller : s'.caller = s.caller)
    (accepted : s'.history.accepted = s.history.accepted)
    (worker : s'.worker = Function.update s.worker i pc) (was : s.worker i ≠ .absent)
    (stays : s.worker i ≠ .exited) (present : pc ≠ .absent) (admits : s.Admits pc) : s'.Sane := by
  have place : ∀ {spot : WorkerPc}, (∀ j, s.worker j = spot → s.Admits spot) →
      ∀ j, s'.worker j = spot → s.Admits spot := by
    intro spot stayed j there
    rw [worker] at there
    by_cases self : j = i
    · subst self
      rw [Function.update_self] at there
      exact there ▸ admits
    · rw [Function.update_of_ne self] at there
      exact stayed j there
  have gone : ∀ j, s.worker j = .exited → s'.worker j = .exited := by
    intro j there
    rw [worker, Function.update_of_ne]
    · exact there
    · rintro rfl
      exact stays there
  constructor
  · rw [owner]
    exact sane.size
  · intro other j
    rw [owner] at other ⊢
    rw [← sane.created other j, worker]
    by_cases self : j = i
    · subst self
      simp [was, present]
    · rw [Function.update_of_ne self]
  · rw [caller, owner]
    exact sane.unused
  · rw [owner, accepted]
    exact sane.early
  · rw [owner, stop]
    exact sane.stopping
  · rw [owner, stop]
    exact sane.stop_only
  · rw [stop, head]
    exact place sane.exited
  · rw [head, owner]
    exact place sane.waits
  · rw [owner]
    exact place sane.sleeps
  · rw [stop, head]
    exact place sane.checks
  · rw [head]
    exact place sane.takes
  · intro j there k below
    rw [owner] at there
    exact gone k (sane.joined j there k below)
  · intro cur there
    rw [owner] at there
    obtain ⟨none, all⟩ := sane.drained cur there
    exact ⟨none, fun k => gone k (all k)⟩
  · intro there k
    rw [owner] at there
    exact gone k (sane.ended there k)

/-- The queue and its waiting threads change inside the lock only. -/
theorem Owned.no_other_inside (owned : s.Owned) {agent : Agent κ n} (inside : s.Inside agent)
    {i : Fin n} (other : .worker i ≠ agent) : ¬ (s.worker i).Inside := by
  intro also
  have one := (owned agent).mpr inside
  have two := (owned (.worker i)).mpr also
  exact other (Option.some.inj (two.symm.trans one))

/-- The worker that holds the lock takes a task. -/
theorem Sane.take (sane : s.Sane) (owned : s.Owned) {i : Fin n} {p : Ptr}
    (there : s.worker i = .take) (owner : s'.owner = s.owner) (stop : s'.stop = s.stop)
    (caller : s'.caller = s.caller) (accepted : s'.history.accepted = s.history.accepted)
    (worker : s'.worker = Function.update s.worker i (.start p)) : s'.Sane := by
  have some := sane.takes i there
  have inside : s.Inside (.worker i) := by
    change (s.worker i).Inside
    rw [there]
    trivial
  have stays : ∀ {spot : WorkerPc} {j : Fin n}, spot ≠ .start p → s'.worker j = spot →
      j ≠ i ∧ s.worker j = spot := by
    intro spot j other now
    rw [worker] at now
    by_cases self : j = i
    · subst self
      rw [Function.update_self] at now
      exact absurd now.symm other
    · rw [Function.update_of_ne self] at now
      exact ⟨self, now⟩
  have apart : ∀ j, j ≠ i → ¬ (s.worker j).Inside := fun j other =>
    owned.no_other_inside inside fun same => other (by cases same; rfl)
  have nobody : ∀ j, s.worker j ≠ .exited := fun j gone => some (sane.exited j gone).2
  constructor
  · rw [owner]
    exact sane.size
  · intro other j
    rw [owner] at other ⊢
    rw [← sane.created other j, worker]
    by_cases self : j = i
    · subst self
      simp [there]
    · rw [Function.update_of_ne self]
  · rw [caller, owner]
    exact sane.unused
  · rw [owner, accepted]
    exact sane.early
  · rw [owner, stop]
    exact sane.stopping
  · rw [owner, stop]
    exact sane.stop_only
  · intro j now
    exact absurd (stays (by simp) now).2 (nobody j)
  · intro j now
    obtain ⟨other, before⟩ := stays (by simp) now
    refine absurd ?_ (apart j other)
    rw [before]
    trivial
  · intro j now
    rw [owner]
    exact sane.sleeps j (stays (by simp) now).2
  · intro j now
    obtain ⟨other, before⟩ := stays (by simp) now
    refine absurd ?_ (apart j other)
    rw [before]
    trivial
  · intro j now
    obtain ⟨other, before⟩ := stays (by simp) now
    refine absurd ?_ (apart j other)
    rw [before]
    trivial
  · intro j now k below
    rw [owner] at now
    exact absurd (sane.joined j now k below) (nobody k)
  · intro cur now
    rw [owner] at now
    exact absurd ((sane.drained cur now).2 i) (nobody i)
  · intro now
    rw [owner] at now
    exact absurd (sane.ended now i) (nobody i)

/-- A submitting thread moves on without touching the queue. -/
theorem Sane.callerGoto [DecidableEq κ] (sane : s.Sane) {k : κ} {pc : CallerPc}
    (owner : s'.owner = s.owner) (stop : s'.stop = s.stop) (head : s'.head = s.head)
    (worker : s'.worker = s.worker) (accepted : s'.history.accepted = s.history.accepted)
    (caller : s'.caller = Function.update s.caller k pc)
    (usable : pc.isOutside = false → Usable s.owner) : s'.Sane := by
  refine ⟨?_, ?_, ?_, ?_, ?_, ?_, ?_, ?_, ?_, ?_, ?_, ?_, ?_, ?_⟩
  case refine_3 =>
    intro k' inside
    rw [owner]
    rw [caller] at inside
    by_cases self : k' = k
    · subst self
      rw [Function.update_self] at inside
      exact usable inside
    · rw [Function.update_of_ne self] at inside
      exact sane.unused k' inside
  all_goals simp only [owner, stop, head, worker, accepted]
  · exact sane.size
  · exact sane.created
  · exact sane.early
  · exact sane.stopping
  · exact sane.stop_only
  · exact sane.exited
  · exact sane.waits
  · exact sane.sleeps
  · exact sane.checks
  · exact sane.takes
  · exact sane.joined
  · exact sane.drained
  · exact sane.ended

/-- The submitting thread that holds the lock queues its task and wakes workers. -/
theorem Sane.accept (sane : s.Sane) (owned : s.Owned) {k : κ} {p : Ptr}
    {woken : Fin n → Bool} (there : s.caller k = .submit p) (going : s.stop = false)
    (owner : s'.owner = s.owner) (stop : s'.stop = s.stop)
    (worker : s'.worker = fun i => wake (woken i) (s.worker i)) : s'.Sane := by
  have usable : Usable s.owner := sane.unused k (by rw [there]; rfl)
  have before : ∀ {spot : WorkerPc} {j : Fin n}, spot ≠ .relock → s'.worker j = spot →
      s.worker j = spot := by
    intro spot j other now
    rw [worker] at now
    exact eq_of_wake now other
  have nobody : ∀ j, ¬ (s.worker j).Inside := fun j =>
    owned.no_other_inside (show s.Inside (.caller k) from ⟨p, there⟩) (by simp)
  have stays : ∀ j, s.worker j ≠ .exited := by
    intro j gone
    have set := (sane.exited j gone).1
    rw [going] at set
    cases set
  have ongoing : ¬ Past s.owner := by
    intro past
    have set := sane.stopping (.inr past)
    rw [going] at set
    cases set
  constructor
  · rw [owner]
    exact sane.size
  · intro other j
    rw [owner] at other ⊢
    rw [← sane.created other j, worker]
    refine ⟨fun now => eq_of_wake now (by simp), fun now => ?_⟩
    change wake (woken j) (s.worker j) = _
    rw [wake_of_ne (by simp [now]), now]
  · intro k' inside
    rw [owner]
    exact usable
  · intro now
    rw [owner] at now
    revert usable now
    cases s.owner <;> simp [Usable, Early]
  · rw [owner, stop]
    exact sane.stopping
  · rw [owner, stop]
    exact sane.stop_only
  · intro j now
    exact absurd (before (by simp) now) (stays j)
  · intro j now
    refine absurd ?_ (nobody j)
    rw [before (by simp) now]
    trivial
  · intro j _
    rw [owner]
    exact ongoing
  · intro j now
    refine absurd ?_ (nobody j)
    rw [before (by simp) now]
    trivial
  · intro j now
    refine absurd ?_ (nobody j)
    rw [before (by simp) now]
    trivial
  · intro j now
    rw [owner] at now
    exact absurd (by rw [now]; trivial) ongoing
  · intro cur now
    rw [owner] at now
    exact absurd (by rw [now]; trivial) ongoing
  · intro now
    rw [owner] at now
    exact absurd (by rw [now]; trivial) ongoing

/-- The owner moves on and may set `stop`; nothing else changes. -/
theorem Sane.ownerGoto (sane : s.Sane) (pc : OwnerPc) (owner : s'.owner = pc)
    (stop : s.stop = true → s'.stop = true) (head : s'.head = s.head)
    (worker : s'.worker = s.worker) (caller : s'.caller = s.caller)
    (accepted : s'.history.accepted = s.history.accepted)
    (size : pc ≠ .begin → pc ≠ .failed → 0 < n)
    (created : pc ≠ .failed →
      s.owner ≠ .failed ∧ ∀ i : Fin n, s.owner.created n ≤ i ↔ pc.created n ≤ i)
    (unused : Usable s.owner → Usable pc ∨ s.Unused) (early : Early pc → Early s.owner)
    (stopping : Failing pc ∨ Past pc → s'.stop = true)
    (stop_only : s'.stop = true → Failing pc ∨ Past pc ∨ pc = .failed)
    (past : Past pc → Past s.owner) (awaited : s.Awaited pc) : s'.Sane := by
  constructor <;> simp only [owner, head, worker, caller, accepted]
  · exact size
  · intro other i
    obtain ⟨before, same⟩ := created other
    rw [sane.created before i, same i]
  · intro k inside
    rcases unused (sane.unused k inside) with usable | nobody
    · exact usable
    · rw [nobody k] at inside
      cases inside
  · exact fun now => sane.early (early now)
  · exact stopping
  · exact stop_only
  · exact fun i now => ⟨stop (sane.exited i now).1, (sane.exited i now).2⟩
  · exact fun i now => ⟨(sane.waits i now).1, fun then' => (sane.waits i now).2 (past then')⟩
  · exact fun i now then' => sane.sleeps i now (past then')
  · exact fun i now => (sane.checks i now).imp stop id
  · exact sane.takes
  · intro j now
    rw [now] at awaited
    exact awaited
  · intro cur now
    rw [now] at awaited
    exact awaited
  · intro now
    rw [now] at awaited
    exact awaited

section Owner

variable {was : OwnerPc} (pc : OwnerPc) (sane : s.Sane) (place : s.owner = was)
  (owner : s'.owner = pc) (head : s'.head = s.head) (worker : s'.worker = s.worker)
  (caller : s'.caller = s.caller)
  (accepted : s'.history.accepted = s.history.accepted)

include sane place owner head worker caller accepted

/-- The owner moves on before `stop` is set. -/
theorem Sane.ownerRuns (stop : s'.stop = s.stop) (off : s.stop = false) (positive : 0 < n)
    (before : was ≠ .failed) (created : ∀ i : Fin n, was.created n ≤ i ↔ pc.created n ≤ i)
    (unused : Usable was → Usable pc) (early : Early pc → Early was)
    (phase : ¬ (Failing pc ∨ Past pc)) : s'.Sane := by
  subst place
  apply sane.ownerGoto pc owner (fun set => stop.trans set) head worker caller accepted
  · exact fun _ _ => positive
  · exact fun _ => ⟨before, created⟩
  · exact fun usable => .inl (unused usable)
  · exact early
  · exact fun now => absurd now phase
  · intro set
    rw [stop, off] at set
    cases set
  · exact fun past => absurd (.inr past) phase
  · cases pc with
    | join j => exact absurd (.inr trivial) phase
    | drain cur => exact absurd (.inr trivial) phase
    | stopped => exact absurd (.inr trivial) phase
    | _ => trivial

/-- The owner moves on with `stop` set. -/
theorem Sane.ownerStops (on : s'.stop = true) (other : was ≠ .begin) (before : was ≠ .failed)
    (created : ∀ i : Fin n, was.created n ≤ i ↔ pc.created n ≤ i)
    (unused : Usable was → Usable pc ∨ s.Unused) (early : Early pc → Early was)
    (phase : Failing pc ∨ Past pc) (past : Past pc → Past was) (awaited : s.Awaited pc) :
    s'.Sane := by
  subst place
  apply sane.ownerGoto pc owner (fun _ => on) head worker caller accepted
  · exact fun _ _ => sane.size other before
  · exact fun _ => ⟨before, created⟩
  · exact unused
  · exact early
  · exact fun _ => on
  · exact fun _ => phase.imp id .inl
  · exact past
  · exact awaited

end Owner

/-- `threadPoolCreate` fails. -/
theorem Sane.ownerFails (sane : s.Sane) (unused : ¬ Usable s.owner) (early : Early s.owner) :
    (s.ownerGoto .failed).Sane := by
  refine sane.ownerGoto .failed rfl id rfl rfl rfl rfl ?_ ?_ ?_ ?_ ?_ ?_ ?_ ?_
  · exact fun _ other => absurd rfl other
  · exact fun other => absurd rfl other
  · exact fun usable => absurd usable unused
  · exact fun _ => early
  · exact fun now => by cases now <;> contradiction
  · exact fun _ => .inr (.inr rfl)
  · exact False.elim
  · trivial

/-- `threadPoolCreate` creates the next worker. -/
theorem Sane.create (sane : s.Sane) {i : ℕ} (inside : i < n) (there : s.owner = .create i)
    (owner : s'.owner = .create (i + 1)) (stop : s'.stop = s.stop) (head : s'.head = s.head)
    (worker : s'.worker = Function.update s.worker ⟨i, inside⟩ .lock)
    (caller : s'.caller = s.caller) (accepted : s'.history.accepted = s.history.accepted) :
    s'.Sane := by
  have place : ∀ {spot : WorkerPc} {j : Fin n}, spot ≠ .lock → s'.worker j = spot →
      s.worker j = spot ∧ j ≠ ⟨i, inside⟩ := by
    intro spot j other now
    rw [worker] at now
    by_cases self : j = ⟨i, inside⟩
    · subst self
      rw [Function.update_self] at now
      exact absurd now.symm other
    · rw [Function.update_of_ne self] at now
      exact ⟨now, self⟩
  have calm : s.stop = false := by
    by_contra set
    rcases sane.stop_only (by simpa using set) with now | now | now <;> rw [there] at now <;>
      cases now
  have absent : ∀ j : Fin n, s.worker j = .absent ↔ i ≤ j := by
    intro j
    rw [sane.created (by rw [there]; simp) j, there]
    rfl
  constructor
  · exact fun _ _ => Nat.zero_lt_of_lt inside
  · intro _ j
    rw [owner]
    change s'.worker j = .absent ↔ i + 1 ≤ j
    constructor
    · intro now
      obtain ⟨before, other⟩ := place (by simp) now
      have later := (absent j).mp before
      have apart : (j : ℕ) ≠ i := fun same => other (Fin.ext same)
      omega
    · intro later
      have apart : j ≠ ⟨i, inside⟩ := by
        rintro rfl
        exact absurd later (by simp)
      rw [worker, Function.update_of_ne apart]
      exact (absent j).mpr (by omega)
  · intro k within
    rw [caller] at within
    have usable := sane.unused k within
    rw [there] at usable
    cases usable
  · rw [accepted]
    exact fun _ => sane.early (by rw [there]; trivial)
  · rw [owner]
    rintro (now | now) <;> cases now
  · intro set
    rw [stop, calm] at set
    cases set
  · intro j now
    rw [stop, head]
    exact sane.exited j (place (by simp) now).1
  · intro j now
    rw [head, owner]
    exact ⟨(sane.waits j (place (by simp) now).1).1, fun past => by cases past⟩
  · intro j _
    rw [owner]
    exact fun past => by cases past
  · intro j now
    rw [stop, head]
    exact sane.checks j (place (by simp) now).1
  · intro j now
    rw [head]
    exact sane.takes j (place (by simp) now).1
  · intro j now
    rw [owner] at now
    cases now
  · intro cur now
    rw [owner] at now
    cases now
  · intro now
    rw [owner] at now
    cases now

/-- The owner wakes all workers that sleep, with `stop` set. -/
theorem Sane.broadcast (sane : s.Sane) (pc : OwnerPc) (owner : s'.owner = pc)
    (stop : s'.stop = true) (head : s'.head = s.head)
    (worker : s'.worker = fun i => wake true (s.worker i)) (caller : s'.caller = s.caller)
    (accepted : s'.history.accepted = s.history.accepted) (present : s.owner ≠ .failed)
    (started : s.owner ≠ .begin)
    (created : ∀ i : Fin n, s.owner.created n ≤ i ↔ pc.created n ≤ i)
    (usable : Usable s.owner → Usable pc) (early : Early pc → Early s.owner)
    (set : Failing pc ∨ Past pc) (nobody : Past pc → ∀ i, s.worker i ≠ .wait)
    (awaited : s.Awaited pc) : s'.Sane := by
  have before : ∀ {spot : WorkerPc} {j : Fin n}, spot ≠ .relock → s'.worker j = spot →
      s.worker j = spot := by
    intro spot j other now
    rw [worker] at now
    exact eq_of_wake now other
  have gone : ∀ i, s.worker i = .exited → s'.worker i = .exited := by
    intro i there
    rw [worker]
    change wake true (s.worker i) = _
    rw [wake_of_ne (by simp [there]), there]
  constructor
  · exact fun _ _ => sane.size started present
  · intro _ i
    rw [owner, ← created i, ← sane.created present i]
    refine ⟨before (by simp), fun now => ?_⟩
    rw [worker]
    change wake true (s.worker i) = _
    rw [wake_of_ne (by simp [now]), now]
  · rw [caller, owner]
    exact fun k inside => usable (sane.unused k inside)
  · rw [owner, accepted]
    exact fun now => sane.early (early now)
  · exact fun _ => stop
  · rw [owner]
    exact fun _ => set.imp id Or.inl
  · intro i now
    rw [head]
    exact ⟨stop, (sane.exited i (before (by simp) now)).2⟩
  · intro i now
    rw [head, owner]
    have was := before (by simp) now
    exact ⟨(sane.waits i was).1, fun past => nobody past i was⟩
  · intro i now
    rw [worker] at now
    have asleep := eq_of_wake now (by simp)
    simp [asleep, wake] at now
  · exact fun _ _ => .inl stop
  · intro i now
    rw [head]
    exact sane.takes i (before (by simp) now)
  · intro j now i below
    rw [owner] at now
    rw [now] at awaited
    exact gone i (awaited i below)
  · intro cur now
    rw [owner] at now
    rw [now] at awaited
    exact ⟨awaited.1, fun i => gone i (awaited.2 i)⟩
  · intro now
    rw [owner] at now
    rw [now] at awaited
    exact fun i => gone i (awaited i)

end Pool

end OperationSystems.ThreadPool
