import OperationSystems.ThreadPool.Phases

/-!
# What every step of the pool keeps

Each step of a worker, of a submitting thread and of the owner keeps who owns the
lock, the tasks in memory and the phases, and is an act of `Dispatch` or invisible
there.
-/

namespace OperationSystems.ThreadPool

open LinkedCells Dispatch

namespace Pool

variable {κ α : Type*} {n : ℕ} {s s' : Pool κ α n}

theorem hand_of_task {heap : Ptr → Option (Task α)} {pc : WorkerPc} (empty : pc.task = none) :
    hand heap pc = .empty := by
  cases pc <;> first | rfl | cases empty

/-- A hand only depends on the call of its task. -/
theorem hand_congr {heap heap' : Ptr → Option (Task α)} {pc : WorkerPc}
    (same : ∀ p, pc.task = some p → (heap' p).map Task.call = (heap p).map Task.call) :
    hand heap' pc = hand heap pc := by
  cases pc with
  | start p => simp only [hand, same p rfl]
  | running p => simp only [hand, same p rfl]
  | _ => rfl

theorem hand_wake (heap : Ptr → Option (Task α)) (woken : Bool) (pc : WorkerPc) :
    hand heap (wake woken pc) = hand heap pc := by
  unfold wake
  split_ifs with sleeps
  · rw [sleeps.2]
    rfl
  · rfl

/-- The invariant of the pool. -/
structure Invariant (s : Pool κ α n) : Prop where
  owned : s.Owned
  memory : s.Memory
  sane : s.Sane

/-- The queue is empty where `head` is NULL. -/
theorem Invariant.queue_nil_iff (invariant : s.Invariant) : s.queue = [] ↔ s.head = none := by
  have chain := invariant.memory.chain
  cases nodes : s.queue with
  | nil =>
      rw [nodes] at chain
      have null : some s.head = some none := chain
      exact iff_of_true rfl (Option.some.inj null)
  | cons p rest =>
      rw [nodes] at chain
      have named : some s.head = some (some p) := chain.1
      refine iff_of_false (by simp) fun null => ?_
      rw [null] at named
      cases Option.some.inj named

/-- What a worker is about to do to a task, for the dispatcher. -/
def workerAct (s : Pool κ α n) (i : Fin n) : Option (Act (Fin n) (Ptr × α)) :=
  match s.worker i with
  | .take => s.head.bind fun p => (s.heap p).map fun task => .take i (p, task.call)
  | .start p => (s.heap p).map fun task => .start i (p, task.call)
  | .running p => (s.heap p).map fun task => .finish i (p, task.call)
  | _ => none

/-- What a submitting thread is about to do to its task. -/
def callerAct (s : Pool κ α n) (k : κ) : Option (Act (Fin n) (Ptr × α)) :=
  match s.caller k with
  | .submit p =>
      if s.stop = true then none else (s.heap p).map fun task => .accept (p, task.call)
  | _ => none

/-- The act of a step. -/
def act (s : Pool κ α n) : Label κ α n → Option (Act (Fin n) (Ptr × α))
  | .worker i => s.workerAct i
  | .owner _ => none
  | .caller k _ _ _ => s.callerAct k

/-- What a step owes the invariant and the dispatcher. -/
structure Refined (s s' : Pool κ α n) (act : Option (Act (Fin n) (Ptr × α))) : Prop where
  invariant : s'.Invariant
  view : Moves s.view act s'.view

/-- The dispatcher does not see a step that leaves the history and the hands alone. -/
theorem view_same (history : s'.history.accepted = s.history.accepted ∧
      s'.history.taken = s.history.taken ∧ s'.history.started = s.history.started ∧
      s'.history.returned = s.history.returned)
    (hands : ∀ i, hand s'.heap (s'.worker i) = hand s.heap (s.worker i)) : s'.view = s.view := by
  obtain ⟨accepted, taken, started, returned⟩ := history
  unfold view
  rw [accepted, taken, started, returned]
  congr 1
  funext i
  exact hands i

/-- The hands after a worker has moved on. -/
theorem hands_update {i : Fin n} {pc : WorkerPc} :
    (fun j => hand s.heap (Function.update s.worker i pc j)) =
      Function.update (fun j => hand s.heap (s.worker j)) i (hand s.heap pc) := by
  funext j
  by_cases self : j = i
  · subst self
    simp
  · simp [Function.update_of_ne self]

/-- Where a worker moves, the others are inside as before. -/
theorem inside_of_goto {i : Fin n} {pc : WorkerPc} (owner : s'.owner = s.owner)
    (caller : s'.caller = s.caller) (worker : s'.worker = Function.update s.worker i pc)
    (agent : Agent κ n) (other : agent ≠ .worker i) : s'.Inside agent ↔ s.Inside agent := by
  cases agent with
  | worker j =>
      have apart : j ≠ i := fun same => other (congrArg _ same)
      unfold Inside
      dsimp only
      rw [worker, Function.update_of_ne apart]
  | owner => simp [Inside, owner]
  | caller k => simp [Inside, caller]

/-- A worker moves on inside the lock, or outside. -/
theorem Owned.goto (owned : s.Owned) {i : Fin n} {pc : WorkerPc} (owner : s'.owner = s.owner)
    (caller : s'.caller = s.caller) (worker : s'.worker = Function.update s.worker i pc)
    (lock : s'.lock = s.lock) (same : pc.Inside ↔ (s.worker i).Inside) : s'.Owned := by
  refine owned.keep lock fun agent => ?_
  by_cases self : agent = .worker i
  · subst self
    unfold Inside
    dsimp only
    rw [worker, Function.update_self, same]
  · exact inside_of_goto owner caller worker agent self

/-- A worker gives up the lock. -/
theorem Owned.leave (owned : s.Owned) {i : Fin n} {pc : WorkerPc} (owner : s'.owner = s.owner)
    (caller : s'.caller = s.caller) (worker : s'.worker = Function.update s.worker i pc)
    (lock : s'.lock = none) (was : (s.worker i).Inside) (out : ¬ pc.Inside) : s'.Owned := by
  refine owned.release (show s.Inside (.worker i) from was) lock ?_
    (inside_of_goto owner caller worker)
  unfold Inside
  dsimp only
  rw [worker, Function.update_self]
  exact out

theorem task_update {i : Fin n} {pc : WorkerPc} (same : pc.task = (s.worker i).task) (j : Fin n) :
    (Function.update s.worker i pc j).task = (s.worker j).task := by
  by_cases self : j = i
  · subst self
    rw [Function.update_self, same]
  · rw [Function.update_of_ne self]

/-- A worker moves on without a task in its hand, and leaves the queue alone. -/
theorem Invariant.quiet (invariant : s.Invariant) {i : Fin n} {pc : WorkerPc}
    (lock : Option (Agent κ n)) (owned : Owned { s.goto i pc with lock := lock })
    (was : s.worker i ≠ .absent) (stays : s.worker i ≠ .exited)
    (task : (s.worker i).task = none) (present : pc ≠ .absent) (after : pc.task = none)
    (admits : s.Admits pc) : Refined s { s.goto i pc with lock := lock } none := by
  have places := task_update (after.trans task.symm)
  refine ⟨⟨owned, ?_, ?_⟩, view_same ⟨rfl, rfl, rfl, rfl⟩ fun j => ?_⟩
  · exact invariant.memory.congr rfl rfl rfl rfl rfl rfl rfl places fun _ => rfl
  · exact invariant.sane.goto rfl rfl rfl rfl rfl rfl was stays present admits
  · change hand s.heap (Function.update s.worker i pc j) = _
    by_cases self : j = i
    · subst self
      rw [Function.update_self, hand_of_task task, hand_of_task after]
    · rw [Function.update_of_ne self]

/-- A worker without a task moves on and stays on its side of the lock. -/
theorem Invariant.turn (invariant : s.Invariant) {i : Fin n} {was pc : WorkerPc}
    (place : s.worker i = was) (there : was ≠ .absent) (stays : was ≠ .exited)
    (empty : was.task = none) (same : pc.Inside ↔ was.Inside) (present : pc ≠ .absent)
    (after : pc.task = none) (admits : s.Admits pc) : Refined s (s.goto i pc) none := by
  subst place
  apply invariant.quiet s.lock _ there stays empty present after admits
  exact invariant.owned.goto rfl rfl rfl rfl same

/-- A worker without a task gives up the lock. -/
theorem Invariant.unlock (invariant : s.Invariant) {i : Fin n} {was pc : WorkerPc}
    (place : s.worker i = was) (there : was ≠ .absent) (stays : was ≠ .exited)
    (empty : was.task = none) (inside : was.Inside) (out : ¬ pc.Inside) (present : pc ≠ .absent)
    (after : pc.task = none) (admits : s.Admits pc) :
    Refined s { s.goto i pc with lock := none } none := by
  subst place
  apply invariant.quiet none _ there stays empty present after admits
  exact invariant.owned.leave rfl rfl rfl rfl inside out

/-- A worker moves on outside the lock with the task in its hand. -/
theorem Invariant.carry (invariant : s.Invariant) {i : Fin n} {p : Ptr} {pc : WorkerPc}
    {history : History α} (was : (s.worker i).task = some p) (now : pc.task = some p)
    (accepted : history.accepted = s.history.accepted) (taken : history.taken = s.history.taken)
    (refused : history.refused = s.history.refused) :
    Invariant { s.goto i pc with history := history } := by
  have outside : ∀ {spot : WorkerPc}, spot.task = some p →
      spot ≠ .absent ∧ spot ≠ .exited ∧ ¬ spot.Inside ∧ s.Admits spot := by
    intro spot has
    cases spot with
    | start q => exact ⟨by simp, by simp, id, trivial⟩
    | running q => exact ⟨by simp, by simp, id, trivial⟩
    | free q => exact ⟨by simp, by simp, id, trivial⟩
    | _ => cases has
  obtain ⟨present, stays, out, _⟩ := outside was
  obtain ⟨present', _, out', admits⟩ := outside now
  refine ⟨?_, ?_, ?_⟩
  · exact invariant.owned.goto rfl rfl rfl rfl (iff_of_false out' out)
  · exact invariant.memory.congr rfl rfl rfl rfl accepted taken refused
      (task_update (now.trans was.symm)) fun _ => rfl
  · exact invariant.sane.goto rfl rfl rfl rfl accepted rfl present stays present' admits

/-- A worker takes the lock. -/
theorem Invariant.lock_step (invariant : s.Invariant) {i : Fin n} (free : s.lock = none)
    (was : s.worker i = .lock ∨ s.worker i = .relock) :
    Refined s { s.goto i .test with lock := some (.worker i) } none := by
  have task : (s.worker i).task = none := by rcases was with was | was <;> rw [was] <;> rfl
  refine invariant.quiet _ ?_ ?_ ?_ task (by simp) rfl trivial
  · refine invariant.owned.acquire free rfl ?_ (inside_of_goto rfl rfl rfl)
    simp [Inside, goto, WorkerPc.Inside]
  · rcases was with was | was <;> simp [was]
  · rcases was with was | was <;> simp [was]

/-- A step of a worker is an act on the tasks or invisible there. -/
theorem stepWorker_refined (invariant : s.Invariant) {i : Fin n}
    (stepped : s.stepWorker i = some s') : Refined s s' (s.workerAct i) := by
  have owned := invariant.owned
  have sane := invariant.sane
  have memory := invariant.memory
  unfold stepWorker at stepped
  unfold workerAct
  cases place : s.worker i with
  | absent =>
      rw [place] at stepped
      cases stepped
  | lock =>
      rw [place] at stepped
      dsimp only at stepped
      split_ifs at stepped with free
      obtain rfl := Option.some.inj stepped
      exact invariant.lock_step free (.inl place)
  | test =>
      rw [place] at stepped
      obtain rfl := Option.some.inj stepped
      split_ifs with must
      · have admits : s.Admits .wait := by
          refine ⟨must.2, fun past => ?_⟩
          have set := sane.stopping (.inr past)
          rw [must.1] at set
          cases set
        exact invariant.turn place (by simp) (by simp) rfl Iff.rfl (by simp) rfl admits
      · have admits : s.Admits .check := by
          by_contra neither
          simp only [Admits, not_or, Bool.not_eq_true, not_not] at neither
          exact must neither
        exact invariant.turn place (by simp) (by simp) rfl Iff.rfl (by simp) rfl admits
  | wait =>
      rw [place] at stepped
      obtain rfl := Option.some.inj stepped
      have admits : s.Admits .asleep := (sane.waits i place).2
      exact invariant.unlock place (by simp) (by simp) rfl trivial id (by simp) rfl admits
  | asleep =>
      rw [place] at stepped
      obtain rfl := Option.some.inj stepped
      exact invariant.turn place (by simp) (by simp) rfl Iff.rfl (by simp) rfl trivial
  | relock =>
      rw [place] at stepped
      dsimp only at stepped
      split_ifs at stepped with free
      obtain rfl := Option.some.inj stepped
      exact invariant.lock_step free (.inr place)
  | check =>
      rw [place] at stepped
      dsimp only at stepped
      split_ifs at stepped with ends
      · obtain rfl := Option.some.inj stepped
        have admits : s.Admits .exited := ends
        exact invariant.unlock place (by simp) (by simp) rfl trivial id (by simp) rfl admits
      · obtain rfl := Option.some.inj stepped
        have admits : s.Admits .take := by
          intro empty
          rcases sane.checks i place with set | some
          · exact ends ⟨set, empty⟩
          · exact some empty
        exact invariant.turn place (by simp) (by simp) rfl Iff.rfl (by simp) rfl admits
  | take =>
      rw [place] at stepped
      cases first : s.head with
      | none =>
          rw [first] at stepped
          cases stepped
      | some p =>
          rw [first] at stepped
          obtain ⟨task, found, rfl⟩ := Option.map_eq_some_iff.mp stepped
          simp only [Option.bind_some, found, Option.map_some]
          have empty : (s.worker i).task = none := by rw [place]; rfl
          obtain ⟨rest, _, split⟩ := memory.head_waiting first found
          refine ⟨⟨?_, memory.take empty first found rfl rfl rfl rfl rfl rfl rfl rfl rfl,
            sane.take owned place rfl rfl rfl rfl rfl⟩, ?_⟩
          · exact owned.leave rfl rfl rfl rfl (by rw [place]; trivial) (by simp [WorkerPc.Inside])
          · have taken : Move s.view (.take i (p, task.call)) _ :=
              .take i (p, task.call) rest (hand_of_task empty) split
            have hands : hand s.heap (.start p) = .holds (p, task.call) := by simp [hand, found]
            unfold view at taken ⊢
            simp only [goto, hands_update, hands]
            exact taken
  | start p =>
      rw [place] at stepped
      obtain ⟨task, found, rfl⟩ := Option.map_eq_some_iff.mp stepped
      simp only [found, Option.map_some]
      have held : hand s.heap (s.worker i) = .holds (p, task.call) := by simp [place, hand, found]
      have started : Move s.view (.start i (p, task.call)) _ := .start i (p, task.call) held
      have hands : hand s.heap (.running p) = .runs (p, task.call) := by simp [hand, found]
      refine ⟨invariant.carry (p := p) (by rw [place]; rfl) rfl rfl rfl rfl, ?_⟩
      unfold view at started ⊢
      simp only [goto, hands_update, hands]
      exact started
  | running p =>
      rw [place] at stepped
      obtain ⟨task, found, rfl⟩ := Option.map_eq_some_iff.mp stepped
      simp only [found, Option.map_some]
      have runs : hand s.heap (s.worker i) = .runs (p, task.call) := by simp [place, hand, found]
      have finished : Move s.view (.finish i (p, task.call)) _ := .finish i (p, task.call) runs
      refine ⟨invariant.carry (p := p) (by rw [place]; rfl) rfl rfl rfl rfl, ?_⟩
      unfold view at finished ⊢
      simp only [goto, hands_update]
      exact finished
  | free p =>
      rw [place] at stepped
      obtain rfl := Option.some.inj stepped
      have has : (s.worker i).task = some p := by rw [place]; rfl
      have out : p ∉ s.queue := fun member => (memory.queued member).2.1 i has
      have others : ∀ j q, (Function.update s.worker i .lock j).task = some q →
          (s.worker j).task = some q ∧ q ≠ p := by
        intro j q there
        by_cases self : j = i
        · subst self
          rw [Function.update_self] at there
          cases there
        · rw [Function.update_of_ne self] at there
          refine ⟨there, ?_⟩
          rintro rfl
          exact self (memory.handed_alone j i q there has)
      refine ⟨⟨?_, ?_, ?_⟩, view_same ⟨rfl, rfl, rfl, rfl⟩ fun j => ?_⟩
      · exact owned.goto rfl rfl rfl rfl (by simp [place, WorkerPc.Inside])
      · refine memory.dispose out rfl rfl rfl rfl rfl rfl others (fun k q there => ⟨there, ?_⟩)
          fun q member => .inl member
        rintro rfl
        obtain ⟨_, unknown, _⟩ := memory.pending k q there
        obtain ⟨_, _, taken⟩ := memory.handed i q has
        exact unknown (List.mem_map_of_mem (memory.order.subset taken))
      · exact sane.goto rfl rfl rfl rfl rfl rfl (by simp [place]) (by simp [place]) (by simp)
          trivial
      · change hand (Function.update s.heap p none) (Function.update s.worker i .lock j) = _
        by_cases self : j = i
        · subst self
          rw [Function.update_self, place]
          rfl
        · rw [Function.update_of_ne self]
          refine hand_congr fun q there => ?_
          rw [Function.update_of_ne]
          rintro rfl
          exact self (memory.handed_alone j i q there has)
  | exited =>
      rw [place] at stepped
      cases stepped

/-- Where a submitting thread moves, the others are inside as before. -/
theorem inside_of_callerGoto [DecidableEq κ] {k : κ} {pc : CallerPc} (owner : s'.owner = s.owner)
    (worker : ∀ i, (s'.worker i).Inside ↔ (s.worker i).Inside)
    (caller : s'.caller = Function.update s.caller k pc) (agent : Agent κ n)
    (other : agent ≠ .caller k) : s'.Inside agent ↔ s.Inside agent := by
  cases agent with
  | worker i => exact worker i
  | owner => simp [Inside, owner]
  | caller k' =>
      have apart : k' ≠ k := fun same => other (congrArg _ same)
      unfold Inside
      dsimp only
      rw [caller, Function.update_of_ne apart]

/-- A submitting thread moves on outside the lock. -/
theorem Owned.callerGoto [DecidableEq κ] (owned : s.Owned) {k : κ} {pc : CallerPc}
    (owner : s'.owner = s.owner) (worker : s'.worker = s.worker)
    (caller : s'.caller = Function.update s.caller k pc) (lock : s'.lock = s.lock)
    (out : ∀ p, pc ≠ .submit p) (was : ∀ p, s.caller k ≠ .submit p) : s'.Owned := by
  refine owned.keep lock fun agent => ?_
  by_cases self : agent = .caller k
  · subst self
    unfold Inside
    dsimp only
    rw [caller, Function.update_self]
    exact iff_of_false (fun ⟨p, there⟩ => out p there) fun ⟨p, there⟩ => was p there
  · exact inside_of_callerGoto owner (fun i => by rw [worker]) caller agent self

/-- A submitting thread gives up the lock. -/
theorem Owned.callerLeave [DecidableEq κ] (owned : s.Owned) {k : κ} {pc : CallerPc} {p : Ptr}
    (owner : s'.owner = s.owner) (worker : ∀ i, (s'.worker i).Inside ↔ (s.worker i).Inside)
    (caller : s'.caller = Function.update s.caller k pc) (lock : s'.lock = none)
    (was : s.caller k = .submit p) (out : ∀ p, pc ≠ .submit p) : s'.Owned := by
  refine owned.release (show s.Inside (.caller k) from ⟨p, was⟩) lock ?_
    (inside_of_callerGoto owner worker caller)
  rintro ⟨q, there⟩
  rw [caller, Function.update_self] at there
  exact out q there

theorem caller_task_update [DecidableEq κ] {k : κ} {pc : CallerPc}
    (same : pc.task = (s.caller k).task) (k' : κ) :
    (Function.update s.caller k pc k').task = (s.caller k').task := by
  by_cases self : k' = k
  · subst self
    rw [Function.update_self, same]
  · rw [Function.update_of_ne self]

/-- So is one of a submitting thread. -/
theorem stepCaller_refined [DecidableEq κ] (invariant : s.Invariant) {k : κ} {fn : Option α}
    {memory : Bool} {woken : Fin n → Bool} (stepped : s.stepCaller k fn memory woken = some s') :
    Refined s s' (s.callerAct k) := by
  have owned := invariant.owned
  have sane := invariant.sane
  have heap := invariant.memory
  unfold stepCaller at stepped
  unfold callerAct
  cases place : s.caller k with
  | outside accepted =>
      rw [place] at stepped
      dsimp only at stepped
      split_ifs at stepped with usable
      split at stepped
      · rename_i call
        obtain rfl := Option.some.inj stepped
        refine ⟨⟨?_, ?_, ?_⟩, view_same ⟨rfl, rfl, rfl, rfl⟩ fun i => hand_congr fun p has => ?_⟩
        · exact owned.callerGoto rfl rfl rfl rfl (by simp) (by simp [place])
        · exact heap.allocate (by rw [place]; rfl) rfl rfl rfl rfl rfl rfl rfl
        · exact sane.callerGoto rfl rfl rfl rfl rfl rfl fun _ => usable
        · obtain ⟨task, _, taken⟩ := heap.handed i p has
          have below := heap.bounded p (List.mem_map_of_mem (heap.order.subset taken))
          change (Function.update s.heap s.fresh _ p).map Task.call = _
          rw [Function.update_of_ne below.ne]
      · obtain rfl := Option.some.inj stepped
        refine ⟨⟨?_, ?_, ?_⟩, rfl⟩
        · exact owned.callerGoto rfl rfl rfl rfl (by simp) (by simp [place])
        · exact heap.congr rfl rfl rfl rfl rfl rfl rfl (fun _ => rfl)
            (caller_task_update (by rw [place]; rfl))
        · exact sane.callerGoto rfl rfl rfl rfl rfl rfl fun inside => by cases inside
  | lock p =>
      rw [place] at stepped
      dsimp only at stepped
      split_ifs at stepped with free
      obtain rfl := Option.some.inj stepped
      refine ⟨⟨?_, ?_, ?_⟩, rfl⟩
      · refine owned.acquire free rfl ?_ (inside_of_callerGoto rfl (fun _ => Iff.rfl) rfl)
        exact ⟨p, by simp [callerGoto]⟩
      · exact heap.congr rfl rfl rfl rfl rfl rfl rfl (fun _ => rfl)
          (caller_task_update (by rw [place]; rfl))
      · exact sane.callerGoto rfl rfl rfl rfl rfl rfl fun _ => sane.unused k (by rw [place]; rfl)
  | submit p =>
      rw [place] at stepped
      dsimp only at stepped
      have has : (s.caller k).task = some p := by rw [place]; rfl
      split_ifs at stepped with stops signalled
      · obtain rfl := Option.some.inj stepped
        refine ⟨⟨?_, ?_, ?_⟩, by dsimp only; rw [if_pos stops]; rfl⟩
        · exact owned.callerLeave rfl (fun _ => Iff.rfl) rfl rfl place (by simp)
        · exact heap.congr rfl rfl rfl rfl rfl rfl rfl (fun _ => rfl)
            (caller_task_update (by rw [place]; rfl))
        · exact sane.callerGoto rfl rfl rfl rfl rfl rfl
            fun _ => sane.unused k (by rw [place]; rfl)
      · obtain ⟨below, new, call, found⟩ := heap.pending k p has
        obtain ⟨task, there, stepped⟩ := Option.bind_eq_some_iff.mp stepped
        obtain rfl := Option.some.inj (found.symm.trans there)
        obtain ⟨s₁, linked, rfl⟩ := Option.map_eq_some_iff.mp stepped
        obtain ⟨whole, _, _, same, _⟩ := heap.link_spec linked
        have accepts : Move s.view (.accept (p, call)) _ := .accept (p, call) fun member =>
          new (List.mem_map_of_mem member)
        have callers : s₁.caller = s.caller := by rw [whole]
        have moved : (s₁.callerGoto k (.outside true)).caller =
            Function.update s.caller k (.outside true) := by
          rw [← callers]
          rfl
        refine ⟨⟨?_, ?_, ?_⟩, ?_⟩
        · refine owned.callerLeave ?_ (fun i => inside_wake _ _) moved rfl place
            fun _ there => ?_
          · rw [whole]
            rfl
          · cases there
        · refine heap.accept has found linked rfl ?_ rfl ?_ rfl rfl rfl (fun i => task_wake _ _)
            fun k' => ?_
          · rw [whole]
            rfl
          · rw [whole]
            rfl
          · change ((s₁.callerGoto k (.outside true)).caller k').task = _
            rw [moved]
            by_cases self : k' = k
            · subst self
              rw [Function.update_self, if_pos rfl]
              rfl
            · rw [Function.update_of_ne self, if_neg self]
        · refine sane.accept owned place (by simpa using stops) ?_ ?_ rfl
          · rw [whole]
            rfl
          · rw [whole]
            rfl
        · have hands : ∀ i, hand s₁.heap (wake (woken i) (s.worker i)) =
              hand s.heap (s.worker i) := by
            intro i
            rw [hand_wake]
            exact hand_congr fun q _ => same q
          dsimp only
          rw [if_neg stops, found]
          unfold view at accepts ⊢
          simp only [callerGoto, hands]
          exact accepts
  | free p =>
      rw [place] at stepped
      obtain ⟨task, found, rfl⟩ := Option.map_eq_some_iff.mp stepped
      have has : (s.caller k).task = some p := by rw [place]; rfl
      obtain ⟨below, new, _⟩ := heap.pending k p has
      have out : p ∉ s.queue := fun member => new (heap.queued member).1
      have unhanded : ∀ i q, (s.worker i).task = some q → q ≠ p := by
        rintro i q there rfl
        obtain ⟨_, _, taken⟩ := heap.handed i q there
        exact new (List.mem_map_of_mem (heap.order.subset taken))
      refine ⟨⟨?_, ?_, ?_⟩, view_same ⟨rfl, rfl, rfl, rfl⟩ fun i => hand_congr fun q there => ?_⟩
      · exact owned.callerGoto rfl rfl rfl rfl (by simp) (by simp [place])
      · refine heap.dispose out rfl rfl rfl rfl rfl rfl (fun i q there => ⟨there, ?_⟩)
          (fun k' q there => ?_) fun q member => ?_
        · exact unhanded i q there
        · change (Function.update s.caller k (.outside false) k').task = some q at there
          by_cases self : k' = k
          · subst self
            rw [Function.update_self] at there
            cases there
          · rw [Function.update_of_ne self] at there
            refine ⟨there, ?_⟩
            rintro rfl
            exact self (heap.pending_alone k' k q there has)
        · change q ∈ (s.history.refused ++ [(p, task.call)]).map Prod.fst at member
          rw [List.map_append, List.mem_append] at member
          rcases member with before | single
          · exact .inl before
          · exact .inr ⟨List.mem_singleton.mp single, below, new⟩
      · exact sane.callerGoto rfl rfl rfl rfl rfl rfl fun inside => by cases inside
      · change (Function.update s.heap p none q).map Task.call = _
        rw [Function.update_of_ne (unhanded i q there)]

/-- Where the owner moves, the others are inside as before. -/
theorem inside_of_owner (worker : ∀ i, (s'.worker i).Inside ↔ (s.worker i).Inside)
    (caller : s'.caller = s.caller) (agent : Agent κ n) (other : agent ≠ .owner) :
    s'.Inside agent ↔ s.Inside agent := by
  cases agent with
  | worker i => exact worker i
  | owner => exact absurd rfl other
  | caller k => simp [Inside, caller]

/-- The owner moves on outside the lock. -/
theorem Owned.ownerGoto (owned : s.Owned) (worker : ∀ i, (s'.worker i).Inside ↔ (s.worker i).Inside)
    (caller : s'.caller = s.caller) (lock : s'.lock = s.lock) (was : s.owner ≠ .setStop)
    (out : s'.owner ≠ .setStop) : s'.Owned := by
  refine owned.keep lock fun agent => ?_
  by_cases self : agent = .owner
  · subst self
    exact iff_of_false out was
  · exact inside_of_owner worker caller agent self

/-- A step of the owner changes neither the tasks nor the hands. -/
theorem Invariant.owner_step (invariant : s.Invariant) (owned : s'.Owned) (sane : s'.Sane)
    (heap : s'.heap = s.heap) (fresh : s'.fresh = s.fresh) (head : s'.head = s.head)
    (tail : s'.tail = s.tail) (history : s'.history = s.history) (caller : s'.caller = s.caller)
    (tasks : ∀ i, (s'.worker i).task = (s.worker i).task)
    (hands : ∀ i, hand s.heap (s'.worker i) = hand s.heap (s.worker i)) : Refined s s' none := by
  refine ⟨⟨owned, ?_, sane⟩, view_same (by rw [history]; exact ⟨rfl, rfl, rfl, rfl⟩)
    fun i => by rw [heap, hands i]⟩
  exact invariant.memory.congr heap fresh head tail (by rw [history]) (by rw [history])
    (by rw [history]) tasks fun k => by rw [caller]

/-- A step of the owner that only moves it on, outside the lock. -/
theorem Invariant.owner_turn (invariant : s.Invariant) {pc : OwnerPc} (was : s.owner ≠ .setStop)
    (out : pc ≠ .setStop) (sane : (s.ownerGoto pc).Sane) : Refined s (s.ownerGoto pc) none :=
  invariant.owner_step (invariant.owned.ownerGoto (fun _ => Iff.rfl) rfl rfl was out) sane rfl rfl
    rfl rfl rfl rfl (fun _ => rfl) fun _ => rfl

/-- The owner is invisible there. -/
theorem stepOwner_refined [Fintype κ] (invariant : s.Invariant) {succeeds : Bool}
    (stepped : s.stepOwner succeeds = some s') : Refined s s' none := by
  have owned := invariant.owned
  have sane := invariant.sane
  unfold stepOwner at stepped
  have calm : ¬ Failing s.owner → ¬ Past s.owner → s.owner ≠ .failed → s.stop = false := by
    intro failing past failed
    by_contra set
    rcases sane.stop_only (by simpa using set) with now | now | now
    · exact failing now
    · exact past now
    · exact failed now
  cases place : s.owner with
  | begin =>
      rw [place] at stepped
      obtain rfl := Option.some.inj stepped
      have off := calm (by simp [place, Failing]) (by simp [place, Past]) (by simp [place])
      refine invariant.owner_turn (by simp [place]) (by split_ifs <;> simp) ?_
      split_ifs with enough
      · exact sane.ownerRuns (.create 0) place rfl rfl rfl rfl rfl rfl off enough.1 (by simp)
          (fun _ => Iff.rfl) False.elim (fun _ => trivial) (by simp [Failing, Past])
      · exact sane.ownerFails (by simp [place, Usable]) (by rw [place]; trivial)
  | create i =>
      rw [place] at stepped
      dsimp only at stepped
      have off := calm (by simp [place, Failing]) (by simp [place, Past]) (by simp [place])
      have some := sane.size (by simp [place]) (by simp [place])
      split_ifs at stepped with inside created
      · obtain rfl := Option.some.inj stepped
        have absent : s.worker ⟨i, inside⟩ = .absent :=
          (sane.created (by simp [place]) _).mpr (by simp [place, OwnerPc.created])
        refine invariant.owner_step ?_ (sane.create inside place rfl rfl rfl rfl rfl rfl) rfl rfl
          rfl rfl rfl rfl (task_update (by rw [absent]; rfl)) fun j => ?_
        · refine owned.ownerGoto (fun j => ?_) rfl rfl (by simp [place]) (by simp [ownerGoto])
          change (Function.update s.worker ⟨i, inside⟩ .lock j).Inside ↔ _
          by_cases self : j = ⟨i, inside⟩
          · subst self
            simp [absent, WorkerPc.Inside]
          · rw [Function.update_of_ne self]
        · change hand s.heap (Function.update s.worker ⟨i, inside⟩ .lock j) = _
          by_cases self : j = ⟨i, inside⟩
          · subst self
            simp [absent, hand]
          · rw [Function.update_of_ne self]
      · obtain rfl := Option.some.inj stepped
        apply invariant.owner_turn (by simp [place]) (by simp)
        exact sane.ownerRuns (.storeStop i) place rfl rfl rfl rfl rfl rfl off some (by simp)
          (fun _ => Iff.rfl) False.elim (fun _ => trivial) (by simp [Failing, Past])
      · obtain rfl := Option.some.inj stepped
        apply invariant.owner_turn (by simp [place]) (by simp)
        refine sane.ownerRuns .serving place rfl rfl rfl rfl rfl rfl off some (by simp)
          (fun j => ?_) False.elim (fun _ => trivial) (by simp [Failing, Past])
        change i ≤ j ↔ n ≤ j
        have bound := j.isLt
        omega
  | storeStop i =>
      rw [place] at stepped
      obtain rfl := Option.some.inj stepped
      refine invariant.owner_step ?_ ?_ rfl rfl rfl rfl rfl rfl (fun _ => rfl) fun _ => rfl
      · exact owned.ownerGoto (fun _ => Iff.rfl) rfl rfl (by simp [place]) (by simp [ownerGoto])
      · exact sane.ownerStops (.broadcast i) place rfl rfl rfl rfl rfl rfl (by simp) (by simp)
          (fun _ => Iff.rfl) False.elim (fun _ => trivial) (.inl trivial) False.elim trivial
  | broadcast i =>
      rw [place] at stepped
      obtain rfl := Option.some.inj stepped
      refine invariant.owner_step ?_ ?_ rfl rfl rfl rfl rfl rfl (fun _ => task_wake _ _)
        fun _ => hand_wake _ _ _
      · exact owned.ownerGoto (fun _ => inside_wake _ _) rfl rfl (by simp [place])
          (by simp [ownerGoto])
      · exact sane.broadcast (.joinFailed i 0) rfl
          (sane.stopping (.inl (by rw [place]; trivial))) rfl rfl rfl rfl
          (by simp [place]) (by simp [place]) (fun j => by simp [place, OwnerPc.created])
          (by simp [place, Usable]) (by simp [place, Early]) (.inl trivial) (by simp [Past])
          trivial
  | joinFailed i j =>
      rw [place] at stepped
      dsimp only at stepped
      have on := sane.stopping (.inl (by rw [place]; trivial))
      split_ifs at stepped with more joins
      · obtain rfl := Option.some.inj stepped
        apply invariant.owner_turn (by simp [place]) (by simp)
        exact sane.ownerStops (.joinFailed i (j + 1)) place rfl rfl rfl rfl rfl on (by simp)
          (by simp) (fun _ => Iff.rfl) False.elim (fun _ => trivial) (.inl trivial) False.elim
          trivial
      · obtain rfl := Option.some.inj stepped
        apply invariant.owner_turn (by simp [place]) (by simp)
        exact sane.ownerFails (by simp [place, Usable]) (by rw [place]; trivial)
  | failed =>
      rw [place] at stepped
      cases stepped
  | serving =>
      rw [place] at stepped
      obtain rfl := Option.some.inj stepped
      have off := calm (by simp [place, Failing]) (by simp [place, Past]) (by simp [place])
      apply invariant.owner_turn (by simp [place]) (by simp)
      exact sane.ownerRuns .lockStop place rfl rfl rfl rfl rfl rfl off
        (sane.size (by simp [place]) (by simp [place])) (by simp) (fun _ => Iff.rfl)
        (fun _ => trivial) False.elim (by simp [Failing, Past])
  | lockStop =>
      rw [place] at stepped
      dsimp only at stepped
      have off := calm (by simp [place, Failing]) (by simp [place, Past]) (by simp [place])
      split_ifs at stepped with free
      obtain rfl := Option.some.inj stepped
      refine invariant.owner_step ?_ ?_ rfl rfl rfl rfl rfl rfl (fun _ => rfl) fun _ => rfl
      · exact owned.acquire free rfl rfl (inside_of_owner (fun _ => Iff.rfl) rfl)
      · exact sane.ownerRuns .setStop place rfl rfl rfl rfl rfl rfl off
          (sane.size (by simp [place]) (by simp [place])) (by simp) (fun _ => Iff.rfl)
          (fun _ => trivial) False.elim (by simp [Failing, Past])
  | setStop =>
      rw [place] at stepped
      obtain rfl := Option.some.inj stepped
      refine invariant.owner_step ?_ ?_ rfl rfl rfl rfl rfl rfl (fun _ => task_wake _ _)
        fun _ => hand_wake _ _ _
      · exact owned.release (show s.Inside .owner from place) rfl (by simp [Inside, ownerGoto])
          (inside_of_owner (fun _ => inside_wake _ _) rfl)
      · refine sane.broadcast (.join 0) rfl rfl rfl rfl rfl rfl (by simp [place]) (by simp [place])
          (fun j => by simp [place, OwnerPc.created]) (fun _ => trivial) (by simp [Early])
          (.inr trivial) (fun _ i waits => ?_) fun i below => absurd below (Nat.not_lt_zero _)
        refine owned.no_other_inside (show s.Inside .owner from place) (i := i) (by simp) ?_
        rw [waits]
        trivial
  | join j =>
      rw [place] at stepped
      dsimp only at stepped
      have on := sane.stopping (.inr (by rw [place]; trivial))
      have passed := sane.joined j place
      split_ifs at stepped with more joins unused
      · obtain rfl := Option.some.inj stepped
        apply invariant.owner_turn (by simp [place]) (by simp)
        refine sane.ownerStops (.join (j + 1)) place rfl rfl rfl rfl rfl on (by simp) (by simp)
          (fun _ => Iff.rfl) (fun _ => .inl trivial) False.elim (.inr trivial) (fun _ => trivial)
          fun i below => ?_
        rcases Nat.lt_succ_iff_lt_or_eq.mp below with earlier | this
        · exact passed i earlier
        · exact (congrArg s.worker (Fin.ext this)).trans (joins more)
      · obtain rfl := Option.some.inj stepped
        have all : ∀ i, s.worker i = .exited := fun i =>
          passed i (lt_of_lt_of_le i.isLt (not_lt.mp more))
        have some := sane.size (by simp [place]) (by simp [place])
        have empty := (sane.exited ⟨0, some⟩ (all _)).2
        apply invariant.owner_turn (by simp [place]) (by simp)
        exact sane.ownerStops (.drain s.head) place rfl rfl rfl rfl rfl on (by simp) (by simp)
          (fun _ => Iff.rfl) (fun _ => .inr unused) False.elim (.inr trivial) (fun _ => trivial)
          ⟨empty, all⟩
  | drain cur =>
      rw [place] at stepped
      obtain ⟨rfl, all⟩ := sane.drained cur place
      obtain rfl := Option.some.inj stepped
      have on := sane.stopping (.inr (by rw [place]; trivial))
      apply invariant.owner_turn (by simp [place]) (by simp)
      exact sane.ownerStops .stopped place rfl rfl rfl rfl rfl on (by simp) (by simp)
        (fun _ => Iff.rfl) False.elim False.elim (.inr trivial) (fun _ => trivial) all
  | stopped =>
      rw [place] at stepped
      cases stepped

/-! ## Runs -/

theorem Invariant.start : (start κ α n).Invariant where
  owned := fun agent => by
    cases agent <;> simp [Pool.start, Inside, WorkerPc.Inside]
  memory := by
    constructor <;> simp [Pool.start, waiting, queue, Pool.cells, WorkerPc.task, CallerPc.task]
  sane := Sane.start

variable [DecidableEq κ] [Fintype κ]

/-- **The step lemma.** Every step of the pool is an act on its tasks or invisible there. -/
theorem step_refined (invariant : s.Invariant) {label : Label κ α n}
    (stepped : s.step label = some s') : Refined s s' (s.act label) := by
  cases label with
  | worker i => exact stepWorker_refined invariant stepped
  | owner succeeds => exact stepOwner_refined invariant stepped
  | caller k fn memory woken => exact stepCaller_refined invariant stepped

/-- **The pool hands tasks out in order.** -/
theorem simulation [DecidableEq α] : Transition.Simulation step
    (fun s : Pool κ α n => s.Invariant) view (fun before after => ∃ act, Move before act after)
    Dispatch.Sound where
  simulates := by
    intro s label next invariant _ stepped
    have refined := step_refined invariant stepped
    refine ⟨refined.invariant, ?_⟩
    have moved := refined.view
    cases act : s.act label with
    | none => exact .inl (by rwa [act] at moved)
    | some one => exact .inr ⟨one, by rwa [act] at moved⟩
  preserves := fun _ _ sound ⟨_, moved⟩ => sound.move moved

/-- **The run lemma.** Every reachable pool keeps its invariant and hands out its tasks in
order. -/
theorem reached_invariant [DecidableEq α] (reached : Transition.Reaches step (start κ α n) s) :
    s.Invariant ∧ Dispatch.Sound s.view :=
  simulation.invariant Invariant.start (.start (fun _ => rfl) rfl rfl rfl rfl) reached

end Pool

end OperationSystems.ThreadPool
