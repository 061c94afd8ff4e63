import OperationSystems.Foundation.Dispatch
import OperationSystems.Foundation.LinkedCells
import OperationSystems.Foundation.Transition
import OperationSystems.ThreadPool.Pool

/-!
# The queue of the pool and who owns which task

The nodes from `head` are the tasks that were accepted and not yet taken, in this
order, and `tail` is the last of them. Every other allocated task belongs to the one
thread that is about to queue it, run it or free it. So the pool hands its tasks out
as `Dispatch` says.
-/

namespace OperationSystems.ThreadPool

open LinkedCells Dispatch

/-- The places that hold a task's address: `pool->head`, and `next` of a task. -/
inductive Cell
  | head
  | next (p : Ptr)
  deriving DecidableEq

theorem Cell.next_injective : Function.Injective Cell.next := fun _ _ => Cell.next.inj

/-- The task a worker has taken and not yet freed. -/
def WorkerPc.task : WorkerPc → Option Ptr
  | .start p => some p
  | .running p => some p
  | .free p => some p
  | _ => none

/-- The task a submitting thread has allocated and neither queued nor freed. -/
def CallerPc.task : CallerPc → Option Ptr
  | .outside _ => none
  | .lock p => some p
  | .submit p => some p
  | .free p => some p

/-- The worker holds `pool->lock`. -/
def WorkerPc.Inside : WorkerPc → Prop
  | .test => True
  | .wait => True
  | .check => True
  | .take => True
  | _ => False

@[simp] theorem task_wake (woken : Bool) (pc : WorkerPc) : (wake woken pc).task = pc.task := by
  unfold wake
  split_ifs with sleeps
  · rw [sleeps.2]
    rfl
  · rfl

@[simp] theorem inside_wake (woken : Bool) (pc : WorkerPc) :
    (wake woken pc).Inside ↔ pc.Inside := by
  unfold wake
  split_ifs with sleeps
  · rw [sleeps.2]
    rfl
  · rfl

namespace Pool

variable {κ α : Type*} {n : ℕ} {s s' : Pool κ α n}

/-- What the cells hold. -/
def cells (s : Pool κ α n) : Cell → Option (Option Ptr)
  | .head => some s.head
  | .next p => (s.heap p).map Task.next

/-- The tasks accepted and not yet taken. -/
def waiting (s : Pool κ α n) : List (Ptr × α) :=
  s.history.accepted.drop s.history.taken.length

/-- The nodes of the queue. -/
def queue (s : Pool κ α n) : List Ptr := s.waiting.map Prod.fst

/-- The hand of a worker. -/
def hand (heap : Ptr → Option (Task α)) : WorkerPc → Hand (Ptr × α)
  | .start p => ((heap p).map Task.call).elim .empty fun call => .holds (p, call)
  | .running p => ((heap p).map Task.call).elim .empty fun call => .runs (p, call)
  | _ => .empty

/-- The pool as one that hands tasks out in order. -/
def view (s : Pool κ α n) : State (Fin n) (Ptr × α) where
  accepted := s.history.accepted
  taken := s.history.taken
  started := s.history.started
  returned := s.history.returned
  hand := fun i => hand s.heap (s.worker i)

/-- The thread is between its lock and its unlock. -/
def Inside (s : Pool κ α n) : Agent κ n → Prop
  | .worker i => (s.worker i).Inside
  | .owner => s.owner = .setStop
  | .caller k => ∃ p, s.caller k = .submit p

/-- `pool->lock` is owned by the thread between its lock and its unlock. -/
def Owned (s : Pool κ α n) : Prop := ∀ agent, s.lock = some agent ↔ s.Inside agent

theorem Owned.keep (owned : s.Owned) (lock : s'.lock = s.lock)
    (same : ∀ agent, s'.Inside agent ↔ s.Inside agent) : s'.Owned := fun agent => by
  rw [lock, owned agent, same agent]

theorem Owned.acquire (owned : s.Owned) {agent : Agent κ n} (free : s.lock = none)
    (lock : s'.lock = some agent) (inside : s'.Inside agent)
    (same : ∀ other ≠ agent, s'.Inside other ↔ s.Inside other) : s'.Owned := by
  intro other
  rw [lock]
  by_cases self : other = agent
  · subst self
    exact ⟨fun _ => inside, fun _ => rfl⟩
  · rw [same other self, ← owned other, free]
    exact ⟨fun equal => absurd (Option.some.inj equal).symm self, fun none => by cases none⟩

theorem Owned.release (owned : s.Owned) {agent : Agent κ n} (was : s.Inside agent)
    (lock : s'.lock = none) (out : ¬ s'.Inside agent)
    (same : ∀ other ≠ agent, s'.Inside other ↔ s.Inside other) : s'.Owned := by
  intro other
  rw [lock]
  refine ⟨fun none => (by cases none), fun inside => ?_⟩
  by_cases self : other = agent
  · subst self
    exact absurd inside out
  · have held := (owned agent).mpr was
    have also := (owned other).mpr ((same other self).mp inside)
    exact absurd (Option.some.inj (held.symm.trans also)).symm self

/-- The tasks in memory: those of the queue, and those in a thread's hand. -/
structure Memory (s : Pool κ α n) : Prop where
  ids : (s.history.accepted.map Prod.fst).Nodup
  order : s.history.taken <+: s.history.accepted
  chain : Path Cell.next s.cells .head s.queue
  tail : s.tail = s.queue.getLast?
  calls : ∀ p call, (p, call) ∈ s.waiting → ∃ next, s.heap p = some ⟨call, next⟩
  bounded : ∀ p ∈ s.history.accepted.map Prod.fst, p < s.fresh
  pending : ∀ k p, (s.caller k).task = some p → p < s.fresh ∧
    p ∉ s.history.accepted.map Prod.fst ∧ ∃ call, s.heap p = some ⟨call, none⟩
  pending_alone : ∀ k k' p, (s.caller k).task = some p → (s.caller k').task = some p → k = k'
  handed : ∀ i p, (s.worker i).task = some p →
    ∃ task, s.heap p = some task ∧ (p, task.call) ∈ s.history.taken
  handed_alone : ∀ i j p, (s.worker i).task = some p → (s.worker j).task = some p → i = j
  refused : ∀ p ∈ s.history.refused.map Prod.fst, p < s.fresh ∧
    p ∉ s.history.accepted.map Prod.fst ∧ ∀ k, (s.caller k).task ≠ some p

/-- Only the memory, the history and the tasks in the hands matter. -/
theorem Memory.congr (memory : s.Memory) (heap : s'.heap = s.heap) (fresh : s'.fresh = s.fresh)
    (head : s'.head = s.head) (tail : s'.tail = s.tail)
    (accepted : s'.history.accepted = s.history.accepted)
    (taken : s'.history.taken = s.history.taken)
    (refused : s'.history.refused = s.history.refused)
    (workers : ∀ i, (s'.worker i).task = (s.worker i).task)
    (callers : ∀ k, (s'.caller k).task = (s.caller k).task) : s'.Memory := by
  have queue : s'.waiting = s.waiting := by rw [waiting, accepted, taken, waiting]
  have cells : s'.cells = s.cells := by
    funext cell
    cases cell <;> simp [Pool.cells, heap, head]
  constructor
  · rw [accepted]
    exact memory.ids
  · rw [accepted, taken]
    exact memory.order
  · rw [Pool.queue, queue, cells]
    exact memory.chain
  · rw [tail, Pool.queue, queue]
    exact memory.tail
  · rw [queue, heap]
    exact memory.calls
  · rw [accepted, fresh]
    exact memory.bounded
  · intro k
    rw [callers, accepted, fresh, heap]
    exact memory.pending k
  · intro k k'
    rw [callers, callers]
    exact memory.pending_alone k k'
  · intro i
    rw [workers, taken, heap]
    exact memory.handed i
  · intro i j
    rw [workers, workers]
    exact memory.handed_alone i j
  · rw [refused, accepted, fresh]
    simp only [callers]
    exact memory.refused

/-- A node of the queue was accepted, and nobody has it in hand. -/
theorem Memory.queued (memory : s.Memory) {p : Ptr} (member : p ∈ s.queue) :
    p ∈ s.history.accepted.map Prod.fst ∧ (∀ i, (s.worker i).task ≠ some p) ∧
      ∀ k, (s.caller k).task ≠ some p := by
  have split : s.history.accepted = s.history.taken ++ s.waiting :=
    (List.prefix_iff_eq_append.mp memory.order).symm
  have inside : p ∈ s.history.accepted.map Prod.fst := by
    rw [split, List.map_append]
    exact List.mem_append_right _ member
  refine ⟨inside, fun i has => ?_, fun k has => (memory.pending k p has).2.1 inside⟩
  obtain ⟨task, _, taken⟩ := memory.handed i p has
  have distinct := memory.ids
  rw [split, List.map_append] at distinct
  exact (List.nodup_append.mp distinct).2.2 p (List.mem_map_of_mem taken) p member rfl

/-- A chain is kept by what happens to other tasks. -/
theorem Memory.chain_of_same (memory : s.Memory) (head : s'.head = s.head)
    (same : ∀ p ∈ s.queue, s'.heap p = s.heap p) : Path Cell.next s'.cells .head s.queue := by
  refine memory.chain.transfer ?_ fun p member => ?_
  · simp [Pool.cells, head]
  · simp [Pool.cells, same p member]

/-- A task in a hand is freed. -/
theorem Memory.dispose (memory : s.Memory) {p : Ptr} (out : p ∉ s.queue)
    (heap : s'.heap = Function.update s.heap p none) (fresh : s'.fresh = s.fresh)
    (head : s'.head = s.head) (tail : s'.tail = s.tail)
    (accepted : s'.history.accepted = s.history.accepted)
    (taken : s'.history.taken = s.history.taken)
    (workers : ∀ i q, (s'.worker i).task = some q → (s.worker i).task = some q ∧ q ≠ p)
    (callers : ∀ k q, (s'.caller k).task = some q → (s.caller k).task = some q ∧ q ≠ p)
    (refused : ∀ q ∈ s'.history.refused.map Prod.fst, q ∈ s.history.refused.map Prod.fst ∨
      (q = p ∧ p < s.fresh ∧ p ∉ s.history.accepted.map Prod.fst)) : s'.Memory := by
  have queue : s'.waiting = s.waiting := by rw [waiting, accepted, taken, waiting]
  have nodes : s'.queue = s.queue := by rw [Pool.queue, queue, Pool.queue]
  have kept : ∀ q, q ≠ p → s'.heap q = s.heap q := by
    intro q other
    rw [heap, Function.update_of_ne other]
  constructor
  · rw [accepted]
    exact memory.ids
  · rw [accepted, taken]
    exact memory.order
  · rw [nodes]
    refine memory.chain_of_same head fun q member => kept q ?_
    rintro rfl
    exact out member
  · rw [tail, nodes]
    exact memory.tail
  · rw [queue]
    intro q call member
    rw [kept q]
    · exact memory.calls q call member
    · rintro rfl
      exact out (List.mem_map_of_mem member)
  · rw [accepted, fresh]
    exact memory.bounded
  · intro k q has
    obtain ⟨had, other⟩ := callers k q has
    rw [fresh, accepted, kept q other]
    exact memory.pending k q had
  · intro k k' q has also
    exact memory.pending_alone k k' q (callers k q has).1 (callers k' q also).1
  · intro i q has
    obtain ⟨had, other⟩ := workers i q has
    rw [taken, kept q other]
    exact memory.handed i q had
  · intro i j q has also
    exact memory.handed_alone i j q (workers i q has).1 (workers j q also).1
  · intro q member
    rw [fresh, accepted]
    rcases refused q member with before | ⟨rfl, below, outside⟩
    · obtain ⟨below, outside, free⟩ := memory.refused q before
      exact ⟨below, outside, fun k has => free k (callers k q has).1⟩
    · exact ⟨below, outside, fun k has => (callers k q has).2 rfl⟩

/-- A task is allocated. -/
theorem Memory.allocate [DecidableEq κ] (memory : s.Memory) {k : κ} {call : α}
    (free : (s.caller k).task = none)
    (heap : s'.heap = Function.update s.heap s.fresh (some ⟨call, none⟩))
    (fresh : s'.fresh = s.fresh + 1) (head : s'.head = s.head) (tail : s'.tail = s.tail)
    (history : s'.history = s.history) (workers : s'.worker = s.worker)
    (callers : s'.caller = Function.update s.caller k (.lock s.fresh)) : s'.Memory := by
  have queue : s'.waiting = s.waiting := by rw [waiting, history, waiting]
  have nodes : s'.queue = s.queue := by rw [Pool.queue, queue, Pool.queue]
  have kept : ∀ q, q < s.fresh → s'.heap q = s.heap q := by
    intro q below
    rw [heap, Function.update_of_ne below.ne]
  have unused : s.fresh ∉ s.history.accepted.map Prod.fst :=
    fun member => (memory.bounded _ member).false
  have known : ∀ k' q, (s'.caller k').task = some q →
      (k' = k ∧ q = s.fresh) ∨ (k' ≠ k ∧ (s.caller k').task = some q) := by
    intro k' q has
    rw [callers] at has
    by_cases self : k' = k
    · subst self
      rw [Function.update_self] at has
      exact .inl ⟨rfl, (Option.some.inj has).symm⟩
    · rw [Function.update_of_ne self] at has
      exact .inr ⟨self, has⟩
  have below : ∀ p ∈ s.queue, p < s.fresh := fun p member =>
    memory.bounded p (memory.queued member).1
  constructor
  · rw [history]
    exact memory.ids
  · rw [history]
    exact memory.order
  · rw [nodes]
    exact memory.chain_of_same head fun q member => kept q (below q member)
  · rw [tail, nodes]
    exact memory.tail
  · rw [queue]
    intro q call member
    rw [kept q (below q (List.mem_map_of_mem member))]
    exact memory.calls q call member
  · intro p member
    rw [history] at member
    rw [fresh]
    exact Nat.lt_succ_of_lt (memory.bounded p member)
  · intro k' q has
    rw [fresh, history]
    rcases known k' q has with ⟨_, rfl⟩ | ⟨_, had⟩
    · exact ⟨Nat.lt_succ_self _, unused, call, by rw [heap, Function.update_self]⟩
    · obtain ⟨inside, outside, task⟩ := memory.pending k' q had
      rw [kept q inside]
      exact ⟨Nat.lt_succ_of_lt inside, outside, task⟩
  · intro one two q has also
    rcases known one q has with ⟨rfl, rfl⟩ | ⟨_, had⟩ <;>
      rcases known two _ also with ⟨rfl, same⟩ | ⟨_, had'⟩
    · rfl
    · exact absurd (memory.pending two _ had').1 (lt_irrefl _)
    · subst same
      exact absurd (memory.pending one _ had).1 (lt_irrefl _)
    · exact memory.pending_alone one two q had had'
  · intro i q has
    rw [workers] at has
    obtain ⟨task, found, taken⟩ := memory.handed i q has
    have inside : q < s.fresh :=
      memory.bounded q (List.mem_map_of_mem (memory.order.subset taken))
    rw [history, kept q inside]
    exact ⟨task, found, taken⟩
  · rw [workers]
    exact memory.handed_alone
  · intro q member
    rw [history] at member ⊢
    rw [fresh]
    obtain ⟨inside, outside, apart⟩ := memory.refused q member
    refine ⟨Nat.lt_succ_of_lt inside, outside, fun k' has => ?_⟩
    rcases known k' q has with ⟨_, rfl⟩ | ⟨_, had⟩
    · exact inside.false
    · exact apart k' had

/-- Where the queue's first node is taken. -/
theorem Memory.head_waiting (memory : s.Memory) {p : Ptr} {task : Task α}
    (first : s.head = some p) (found : s.heap p = some task) :
    ∃ rest, s.waiting = (p, task.call) :: rest ∧
      s.history.accepted = s.history.taken ++ (p, task.call) :: rest := by
  have split : s.history.accepted = s.history.taken ++ s.waiting :=
    (List.prefix_iff_eq_append.mp memory.order).symm
  have chain := memory.chain
  unfold queue at chain
  cases waits : s.waiting with
  | nil =>
      rw [waits] at chain
      have null : some s.head = some none := chain
      rw [first] at null
      cases null
  | cons one rest =>
      obtain ⟨q, call⟩ := one
      rw [waits] at chain
      have named : some s.head = some (some q) := chain.1
      obtain rfl : p = q := by
        rw [first] at named
        simpa using named
      obtain ⟨next, held⟩ := memory.calls p call (by rw [waits]; exact List.mem_cons_self)
      obtain rfl := Option.some.inj (found.symm.trans held)
      exact ⟨rest, rfl, waits ▸ split⟩

/-- What waits after the first of those that waited was taken. -/
theorem waiting_of_take {one : Ptr × α} {rest : List (Ptr × α)}
    (split : s.history.accepted = s.history.taken ++ one :: rest)
    (accepted : s'.history.accepted = s.history.accepted)
    (taken : s'.history.taken = s.history.taken ++ [one]) : s'.waiting = rest := by
  have length : s.history.taken.length + 1 = (s.history.taken ++ [one]).length := by simp
  rw [waiting, accepted, taken, ← length, split, ← List.drop_drop, List.drop_left]
  rfl

/-- Who takes a task takes the one that has waited longest. -/
theorem waiting_eq_of_take {one : Ptr × α} {rest : List (Ptr × α)}
    (split : s.history.accepted = s.history.taken ++ one :: rest)
    (accepted : s'.history.accepted = s.history.accepted)
    (taken : s'.history.taken = s.history.taken ++ [one]) : s.waiting = one :: s'.waiting := by
  rw [waiting_of_take split accepted taken, waiting, split, List.drop_left]

/-- What waits after one more task was accepted. -/
theorem waiting_of_accept {one : Ptr × α} (order : s.history.taken <+: s.history.accepted)
    (accepted : s'.history.accepted = s.history.accepted ++ [one])
    (taken : s'.history.taken = s.history.taken) : s'.waiting = s.waiting ++ [one] := by
  rw [waiting, accepted, taken, List.drop_append_of_le_length order.length_le, waiting]

/-- What is accepted waits at the end of the queue. -/
theorem queue_of_accept {one : Ptr × α} (order : s.history.taken <+: s.history.accepted)
    (accepted : s'.history.accepted = s.history.accepted ++ [one])
    (taken : s'.history.taken = s.history.taken) : s'.queue = s.queue ++ [one.1] := by
  rw [queue, waiting_of_accept order accepted taken, List.map_append, queue]
  rfl

/-- A worker takes the first task of the queue. -/
theorem Memory.take (memory : s.Memory) {i : Fin n} {p : Ptr} {task : Task α}
    (idle : (s.worker i).task = none) (first : s.head = some p) (found : s.heap p = some task)
    (heap : s'.heap = s.heap) (fresh : s'.fresh = s.fresh) (head : s'.head = task.next)
    (tail : s'.tail = if task.next = none then none else s.tail)
    (accepted : s'.history.accepted = s.history.accepted)
    (taken : s'.history.taken = s.history.taken ++ [(p, task.call)])
    (refused : s'.history.refused = s.history.refused)
    (workers : s'.worker = Function.update s.worker i (.start p))
    (callers : s'.caller = s.caller) : s'.Memory := by
  obtain ⟨rest, waits, split⟩ := memory.head_waiting first found
  have later : s'.waiting = rest := waiting_of_take split accepted taken
  have nodes : s.queue = p :: rest.map Prod.fst := by
    unfold queue
    rw [waits]
    rfl
  have after : s'.queue = rest.map Prod.fst := by rw [queue, later]
  have member : p ∈ s.queue := by rw [nodes]; exact List.mem_cons_self
  obtain ⟨_, unhanded, _⟩ := memory.queued member
  have chain : Path Cell.next s.cells (.next p) (rest.map Prod.fst) := by
    have whole := memory.chain
    rw [nodes] at whole
    exact whole.2
  have link : s.cells (.next p) = some task.next := by simp [Pool.cells, found]
  constructor
  · rw [accepted]
    exact memory.ids
  · rw [accepted, taken, split]
    exact ⟨rest, by simp⟩
  · rw [after]
    refine chain.transfer ?_ fun q _ => ?_
    · rw [link]
      simp [Pool.cells, head]
    · simp [Pool.cells, heap]
  · rw [after, tail, memory.tail, nodes]
    cases rest with
    | nil =>
        have null : s.cells (.next p) = some none := chain
        have ends : task.next = none := Option.some.inj (link.symm.trans null)
        simp [ends]
    | cons one rest =>
        have named := chain.1
        rw [link] at named
        have some : task.next ≠ none := by
          rw [Option.some.inj named]
          simp
        rw [if_neg some]
        simp [List.getLast?_cons]
  · rw [later, heap]
    intro q call inside
    exact memory.calls q call (by rw [waits]; exact List.mem_cons_of_mem _ inside)
  · rw [accepted, fresh]
    exact memory.bounded
  · rw [callers, accepted, fresh, heap]
    exact memory.pending
  · rw [callers]
    exact memory.pending_alone
  · intro j q has
    rw [workers] at has
    rw [heap, taken]
    by_cases self : j = i
    · subst self
      rw [Function.update_self] at has
      obtain rfl := Option.some.inj has
      exact ⟨task, found, by simp⟩
    · rw [Function.update_of_ne self] at has
      obtain ⟨other, held, before⟩ := memory.handed j q has
      exact ⟨other, held, List.mem_append_left _ before⟩
  · intro one two q has also
    rw [workers] at has also
    by_cases first : one = i <;> by_cases second : two = i
    · rw [first, second]
    · subst first
      rw [Function.update_self] at has
      rw [Function.update_of_ne second] at also
      obtain rfl := Option.some.inj has
      exact absurd also (unhanded two)
    · subst second
      rw [Function.update_self] at also
      rw [Function.update_of_ne first] at has
      obtain rfl := Option.some.inj also
      exact absurd has (unhanded one)
    · rw [Function.update_of_ne first] at has
      rw [Function.update_of_ne second] at also
      exact memory.handed_alone one two q has also
  · rw [refused, accepted, fresh, callers]
    exact memory.refused

/-- Lines 80 to 85 of `threadPoolSubmit` write the cell that ended the queue. -/
theorem Memory.link_spec (memory : s.Memory) {p : Ptr} {s₁ : Pool κ α n}
    (linked : s.link p = some s₁) :
    s₁ = { s with heap := s₁.heap, head := s₁.head, tail := some p } ∧
      s₁.cells (lastCell Cell.next .head s.queue) = some (some p) ∧
      (∀ cell, cell ≠ lastCell Cell.next .head s.queue → s₁.cells cell = s.cells cell) ∧
      (∀ q, (s₁.heap q).map Task.call = (s.heap q).map Task.call) ∧
      ∀ q ∉ s.queue, s₁.heap q = s.heap q := by
  unfold Pool.link at linked
  have ending := memory.tail
  cases last : s.tail with
  | none =>
      rw [last] at linked ending
      obtain rfl := Option.some.inj linked
      have place : lastCell Cell.next .head s.queue = .head := by
        simp [lastCell, ← ending]
      refine ⟨rfl, by rw [place]; rfl, fun cell other => ?_, fun _ => rfl, fun _ _ => rfl⟩
      rw [place] at other
      cases cell with
      | head => exact absurd rfl other
      | next q => rfl
  | some t =>
      rw [last] at linked ending
      obtain ⟨task, found, rfl⟩ := Option.map_eq_some_iff.mp linked
      have place : lastCell Cell.next .head s.queue = .next t := by
        simp [lastCell, ← ending]
      have member : t ∈ s.queue := List.mem_of_getLast? ending.symm
      refine ⟨rfl, by rw [place]; simp [Pool.cells], fun cell other => ?_, fun q => ?_,
        fun q out => ?_⟩
      · rw [place] at other
        cases cell with
        | head => rfl
        | next q =>
            have apart : q ≠ t := fun same => other (congrArg Cell.next same)
            simp [Pool.cells, Function.update_of_ne apart]
      · by_cases same : q = t
        · subst same
          simp [found]
        · simp [Function.update_of_ne same]
      · refine Function.update_of_ne ?_ _ _
        rintro rfl
        exact out member

/-- A task is put at the end of the queue. -/
theorem Memory.accept [DecidableEq κ] (memory : s.Memory) {k : κ} {p : Ptr} {call : α}
    {s₁ : Pool κ α n} (has : (s.caller k).task = some p) (found : s.heap p = some ⟨call, none⟩)
    (linked : s.link p = some s₁) (heap : s'.heap = s₁.heap) (fresh : s'.fresh = s.fresh)
    (head : s'.head = s₁.head) (tail : s'.tail = some p)
    (accepted : s'.history.accepted = s.history.accepted ++ [(p, call)])
    (taken : s'.history.taken = s.history.taken)
    (refused : s'.history.refused = s.history.refused)
    (workers : ∀ i, (s'.worker i).task = (s.worker i).task)
    (callers : ∀ k', (s'.caller k').task = if k' = k then none else (s.caller k').task) :
    s'.Memory := by
  obtain ⟨_, last, others, same, outside⟩ := memory.link_spec linked
  obtain ⟨below, new, _⟩ := memory.pending k p has
  have out : p ∉ s.queue := fun member => new (memory.queued member).1
  have waits : s'.waiting = s.waiting ++ [(p, call)] :=
    waiting_of_accept memory.order accepted taken
  have nodes : s'.queue = s.queue ++ [p] := queue_of_accept memory.order accepted taken
  have cells : s'.cells = s₁.cells := by
    funext cell
    cases cell <;> simp [Pool.cells, heap, head]
  have kept : ∀ q task, s.heap q = some task → ∃ next, s'.heap q = some ⟨task.call, next⟩ := by
    intro q task held
    have calls := same q
    rw [held] at calls
    obtain ⟨after, held', equal⟩ := Option.map_eq_some_iff.mp calls
    exact ⟨after.next, by rw [heap, held', ← equal]⟩
  have others_kept : ∀ k' q, k' ≠ k → (s.caller k').task = some q → s'.heap q = s.heap q := by
    intro k' q _ had
    rw [heap]
    exact outside q fun member => (memory.queued member).2.2 k' had
  have known : ∀ k' q, (s'.caller k').task = some q → k' ≠ k ∧ (s.caller k').task = some q := by
    intro k' q had
    rw [callers] at had
    split_ifs at had with self
    exact ⟨self, had⟩
  constructor
  · rw [accepted, List.map_append]
    refine List.nodup_append.mpr ⟨memory.ids, List.nodup_singleton p, ?_⟩
    rintro q member r single rfl
    have same : q = p := List.mem_singleton.mp single
    exact new (same ▸ member)
  · rw [accepted, taken]
    exact memory.order.trans (List.prefix_append _ _)
  · rw [nodes, cells]
    refine memory.chain.append Cell.next_injective (fun _ _ => by simp) last ?_ others
    have null : s₁.heap p = s.heap p := outside p out
    simp [Pool.cells, null, found]
  · rw [tail, nodes]
    simp
  · intro q one member
    rw [waits, List.mem_append] at member
    rcases member with before | single
    · obtain ⟨next, held⟩ := memory.calls q one before
      exact kept q _ held
    · obtain ⟨rfl, rfl⟩ := Prod.mk.inj (List.mem_singleton.mp single)
      exact kept q _ found
  · intro q member
    rw [accepted, List.map_append, List.mem_append] at member
    rw [fresh]
    rcases member with before | single
    · exact memory.bounded q before
    · obtain rfl := List.mem_singleton.mp single
      exact below
  · intro k' q had
    obtain ⟨other, had⟩ := known k' q had
    obtain ⟨inside, unknown, task⟩ := memory.pending k' q had
    rw [fresh, others_kept k' q other had]
    refine ⟨inside, ?_, task⟩
    rw [accepted, List.map_append, List.mem_append]
    rintro (before | single)
    · exact unknown before
    · obtain rfl := List.mem_singleton.mp single
      exact other (memory.pending_alone k' k q had has)
  · intro one two q had had'
    exact memory.pending_alone one two q (known one q had).2 (known two q had').2
  · intro i q had
    rw [workers] at had
    obtain ⟨task, held, before⟩ := memory.handed i q had
    obtain ⟨next, held'⟩ := kept q task held
    rw [taken]
    exact ⟨_, held', before⟩
  · intro i j q
    rw [workers, workers]
    exact memory.handed_alone i j q
  · intro q member
    rw [refused] at member
    obtain ⟨inside, unknown, apart⟩ := memory.refused q member
    rw [fresh]
    refine ⟨inside, ?_, fun k' had => apart k' (known k' q had).2⟩
    rw [accepted, List.map_append, List.mem_append]
    rintro (before | single)
    · exact unknown before
    · obtain rfl := List.mem_singleton.mp single
      exact apart k has

end Pool

end OperationSystems.ThreadPool
