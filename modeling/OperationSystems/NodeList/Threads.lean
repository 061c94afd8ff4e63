import Mathlib.Data.Fintype.Basic
import OperationSystems.NodeList.Storage

/-!
# The threads on the list

`traverse_list`, `do_random_swap`, `thread_monitor` and `inc_long` as step functions.
One step acquires or releases a lock, reads or writes a pointer or a counter, or runs to
the next such point. Any number of threads take their steps in any order. The mutex and
the rwlock program differ in which threads exclude each other from a node.
-/

namespace OperationSystems.NodeList

/-- The static counters. -/
inductive Counter
  | ascIterations
  | descIterations
  | equalIterations
  | ascPairs
  | descPairs
  | equalPairs
  | ascSwaps
  | descSwaps
  | equalSwaps
  deriving DecidableEq

/-- `pair_predicate`, on the two lengths. -/
abbrev PairPredicate : Type := ℤ → ℤ → Bool

def predLess : PairPredicate := fun l1 l2 => decide (l1 < l2)
def predGreater : PairPredicate := fun l1 l2 => decide (l1 > l2)
def predEqual : PairPredicate := fun l1 l2 => decide (l1 = l2)
def predNotEqual : PairPredicate := fun l1 l2 => decide (l1 ≠ l2)

/-- What a thread runs. -/
inductive Role
  | traverse (matchPred : PairPredicate) (iterCounter pairsCounter : Counter)
  | swap (needSwap : PairPredicate) (swapCounter : Counter)
  | monitor

def threadAsc : Role := .traverse predLess .ascIterations .ascPairs
def threadDesc : Role := .traverse predGreater .descIterations .descPairs
def threadEqual : Role := .traverse predEqual .equalIterations .equalPairs
def threadSwapAsc : Role := .swap predGreater .ascSwaps
def threadSwapDesc : Role := .swap predLess .descSwaps
def threadSwapEqual : Role := .swap predNotEqual .equalSwaps
def threadMonitor : Role := .monitor

/-! ## Where a thread is -/

/-- Where a call of `inc_long(p)` is; `store` holds the value that was read. -/
inductive IncLong
  | lock (p : Counter)
  | load (p : Counter)
  | store (p : Counter) (read : ℤ)
  | unlock (p : Counter)
  deriving DecidableEq

/-- Where `traverse_list` is. -/
inductive TraversePc
  | lockFirst
  | readFirst
  | unlockEmpty
  | lockA (a : Node)
  | unlockFirst (a : Node)
  | readNext (a : Node)
  | lockB (a b : Node)
  | evaluate (a b : Node)
  | countPair (a b : Node) (call : IncLong)
  | unlockA (a b : Node)
  | unlockLast (a : Node)
  | countIteration (call : IncLong)
  deriving DecidableEq

/-- Where `do_random_swap` is; `start` is also between two calls. The points `missing…`
and `broken` are behind a NULL that was read: the returns for a missing node, and the
`break` out of the loop. -/
inductive SwapPc
  | start
  | lockFirst (index : ℕ)
  | readFirst (index : ℕ)
  | missingA
  | lockA (index : ℕ) (a : Node)
  | loop (index i : ℕ) (prev a : Node)
  | broken (index : ℕ) (prev a : Node)
  | lockNext (index i : ℕ) (prev a next : Node)
  | unlockPrev (index i : ℕ) (prev a next : Node)
  | readB (index : ℕ) (prev a : Node)
  | missingB (prev a : Node)
  | missingPrev (prev : Node)
  | lockB (index : ℕ) (prev a b : Node)
  | compare (index : ℕ) (prev a b : Node)
  | storePrev (index : ℕ) (prev a b : Node)
  | loadNext (index : ℕ) (prev a b : Node)
  | storeA (index : ℕ) (prev a b : Node) (next : Option Node)
  | storeB (index : ℕ) (prev a b : Node)
  | count (prev a b : Node) (call : IncLong)
  | unlockB (prev a b : Node)
  | unlockA (prev a : Node)
  | unlockLast (prev : Node)
  deriving DecidableEq

/-- Where `thread_monitor` is, with the counters that `snapshot_counters` has read. -/
inductive MonitorPc
  | lock
  | read (values : List ℤ)
  | unlock (values : List ℤ)
  deriving DecidableEq

inductive Pc
  | traverse (pc : TraversePc)
  | swap (pc : SwapPc)
  | monitor (pc : MonitorPc)
  deriving DecidableEq

/-- Where a thread begins. -/
def Role.begin : Role → Pc
  | .traverse .. => .traverse .lockFirst
  | .swap .. => .swap .start
  | .monitor => .monitor .lock

/-! ## The functions -/

/-- What a step does to what the threads share. A `store` into `next` may complete the
swap at an index. -/
inductive Effect
  | silent
  | lock (x : Node)
  | unlock (x : Node)
  | store (x : Node) (next : Option Node) (completes : Option ℕ)
  | evaluate (a b : Node)
  | lockCounters
  | count (p : Counter) (value : ℤ)
  | unlockCounters

/-- `inc_long`. The call is over when no point follows. -/
def incLong (counters : Counter → ℤ) : IncLong → Effect × Option IncLong
  | .lock p => (.lockCounters, some (.load p))
  | .load p => (.silent, some (.store p (counters p)))
  | .store p read => (.count p (read + 1), some (.unlock p))
  | .unlock _ => (.unlockCounters, none)

/-- A step inside a call of `inc_long`, and where the caller is then. -/
def inside {Point : Type} (counters : Counter → ℤ) (call : IncLong) (within : IncLong → Point)
    (done : Point) : Effect × Point :=
  ((incLong counters call).1, ((incLong counters call).2.map within).getD done)

/-- `traverse_list`. -/
def traverseList (s : Storage) (matchPred : PairPredicate) (iterCounter pairsCounter : Counter)
    (next : Node → Option Node) (counters : Counter → ℤ) : TraversePc → Effect × TraversePc
  | .lockFirst => (.lock s.first, .readFirst)
  | .readFirst => (.silent, match next s.first with
      | none => .unlockEmpty
      | some a => .lockA a)
  | .unlockEmpty => (.unlock s.first, .countIteration (.lock iterCounter))
  | .lockA a => (.lock a, .unlockFirst a)
  | .unlockFirst a => (.unlock s.first, .readNext a)
  | .readNext a => (.silent, match next a with
      | none => .unlockLast a
      | some b => .lockB a b)
  | .lockB a b => (.lock b, .evaluate a b)
  | .evaluate a b =>
      (.evaluate a b,
        if matchPred (s.value a).strlen (s.value b).strlen then
          .countPair a b (.lock pairsCounter)
        else .unlockA a b)
  | .countPair a b call => inside counters call (.countPair a b) (.unlockA a b)
  | .unlockA a b => (.unlock a, .readNext b)
  | .unlockLast a => (.unlock a, .countIteration (.lock iterCounter))
  | .countIteration call => inside counters call .countIteration .lockFirst

/-- `do_random_swap`, with the result of `rand_r`. -/
def doRandomSwap (s : Storage) (needSwap : PairPredicate) (swapCounter : Counter) (rand : ℕ)
    (next : Node → Option Node) (counters : Counter → ℤ) : SwapPc → Effect × SwapPc
  | .start =>
      (.silent, if s.count < 2 then .start else .lockFirst (rand % (s.count - 1)))
  | .lockFirst index => (.lock s.first, .readFirst index)
  | .readFirst index => (.silent, match next s.first with
      | none => .missingA
      | some a => .lockA index a)
  | .missingA => (.unlock s.first, .start)
  | .lockA index a => (.lock a, .loop index 0 s.first a)
  | .loop index i prev a =>
      (.silent,
        if i < index then
          match next a with
          | none => .broken index prev a
          | some node => .lockNext index i prev a node
        else .readB index prev a)
  -- the `break`
  | .broken index prev a => (.silent, .readB index prev a)
  | .lockNext index i prev a node => (.lock node, .unlockPrev index i prev a node)
  | .unlockPrev index i prev a node => (.unlock prev, .loop index (i + 1) a node)
  | .readB index prev a => (.silent, match next a with
      | none => .missingB prev a
      | some b => .lockB index prev a b)
  | .missingB prev a => (.unlock a, .missingPrev prev)
  | .missingPrev prev => (.unlock prev, .start)
  | .lockB index prev a b => (.lock b, .compare index prev a b)
  | .compare index prev a b =>
      (.silent,
        if needSwap (s.value a).strlen (s.value b).strlen then .storePrev index prev a b
        else .unlockB prev a b)
  | .storePrev index prev a b => (.store prev (some b) none, .loadNext index prev a b)
  | .loadNext index prev a b => (.silent, .storeA index prev a b (next b))
  | .storeA index prev a b node => (.store a node none, .storeB index prev a b)
  | .storeB index prev a b =>
      (.store b (some a) (some index), .count prev a b (.lock swapCounter))
  | .count prev a b call => inside counters call (.count prev a b) (.unlockB prev a b)
  | .unlockB prev a b => (.unlock b, .unlockA prev a)
  | .unlockA prev a => (.unlock a, .unlockLast prev)
  | .unlockLast prev => (.unlock prev, .start)

/-- What `snapshot_counters` reads, in its order. -/
def snapshotOrder : List Counter :=
  [.ascIterations, .descIterations, .equalIterations, .ascSwaps, .descSwaps, .equalSwaps]

/-- `thread_monitor`. -/
def monitor (counters : Counter → ℤ) : MonitorPc → Effect × MonitorPc
  | .lock => (.lockCounters, .read [])
  | .read values => (.silent, match snapshotOrder[values.length]? with
      | some p => .read (values ++ [counters p])
      | none => .unlock values)
  | .unlock _ => (.unlockCounters, .lock)

/-! ## The system -/

/-- What the threads share, where they are, and what has happened: the nodes each has
locked since it last held none, the pairs it has evaluated since then, and the completed
swaps, oldest first, with the thread and the index. `queued` are the threads that sleep
in the call that locks a node. -/
structure World (τ : Type*) where
  next : Node → Option Node
  counters : Counter → ℤ
  held : τ → List Node
  queued : τ → Bool
  countersLock : Option τ
  pc : τ → Pc
  visited : τ → List Node
  pairs : τ → List (Node × Node)
  swapped : List (τ × ℕ)

/-- The thread locks nodes for writing, where that makes a difference. -/
def Role.writes : Role → Bool
  | .swap .. => true
  | _ => false

/-- Two threads of these roles cannot hold the lock of a node together. -/
def Variant.conflict : Variant → Role → Role → Bool
  | .mutex, _, _ => true
  | .rw _, first, second => first.writes || second.writes

/-- A reader waits behind a writer that waits. -/
def Variant.waitsBehind : Variant → Role → Role → Bool
  | .rw true, first, second => !first.writes && second.writes
  | _, _, _ => false

/-- The node whose lock a thread at this point takes or waits for. -/
def Pc.wants (first : Node) : Pc → Option Node
  | .traverse .lockFirst => some first
  | .traverse (.lockA a) => some a
  | .traverse (.lockB _ b) => some b
  | .swap (.lockFirst _) => some first
  | .swap (.lockA _ a) => some a
  | .swap (.lockNext _ _ _ _ next) => some next
  | .swap (.lockB _ _ _ b) => some b
  | _ => none

/-- The thread waits for `counters_lock` or is about to take it. -/
def Pc.wantsCounters : Pc → Bool
  | .traverse (.countPair _ _ (.lock _)) => true
  | .traverse (.countIteration (.lock _)) => true
  | .swap (.count _ _ _ (.lock _)) => true
  | .monitor .lock => true
  | _ => false

namespace World

variable {τ : Type*}

/-- The list as it was built, and every thread at the beginning of its function. -/
def start (s : Storage) (roles : τ → Role) : World τ where
  next := s.next
  counters := fun _ => 0
  held := fun _ => []
  queued := fun _ => false
  countersLock := none
  pc := fun t => (roles t).begin
  visited := fun _ => []
  pairs := fun _ => []
  swapped := []

/-- The thread can be given the lock of the node. -/
def Available (v : Variant) (s : Storage) (roles : τ → Role) (w : World τ) (t : τ) (x : Node) :
    Prop :=
  (∀ u, v.conflict (roles t) (roles u) = true → x ∉ w.held u) ∧
    ∀ u, v.waitsBehind (roles t) (roles u) = true →
      ¬ (w.queued u = true ∧ (w.pc u).wants s.first = some x)

instance [Fintype τ] (v : Variant) (s : Storage) (roles : τ → Role) (w : World τ) (t : τ)
    (x : Node) : Decidable (Available v s roles w t x) :=
  inferInstanceAs (Decidable ((∀ _, _ → _) ∧ ∀ _, _ → ¬ (_ ∧ _)))

variable [DecidableEq τ]

def goto (w : World τ) (t : τ) (pc : Pc) : World τ :=
  { w with pc := Function.update w.pc t pc }

/-- The thread takes the lock of a node. The first one begins a new walk. -/
def acquire (w : World τ) (t : τ) (x : Node) : World τ :=
  { w with
    held := Function.update w.held t (w.held t ++ [x])
    queued := Function.update w.queued t false
    visited := Function.update w.visited t (if w.held t = [] then [x] else w.visited t ++ [x])
    pairs := Function.update w.pairs t (if w.held t = [] then [] else w.pairs t) }

def release (w : World τ) (t : τ) (x : Node) : World τ :=
  { w with held := Function.update w.held t ((w.held t).erase x) }

/-- A pointer store, which may complete a swap. -/
def store (w : World τ) (t : τ) (x : Node) (next : Option Node) (completes : Option ℕ) :
    World τ :=
  { w with
    next := Function.update w.next x next
    swapped := w.swapped ++ (completes.map fun index => (t, index)).toList }

variable [Fintype τ]

/-- Carry out the effect of a step that leads to `pc`. Who does not get the lock of a node
falls asleep in front of it. -/
def perform (v : Variant) (s : Storage) (roles : τ → Role) (w : World τ) (t : τ) (pc : Pc) :
    Effect → Option (World τ)
  | .silent => some (w.goto t pc)
  | .lock x =>
      if Available v s roles w t x then some ((w.acquire t x).goto t pc)
      else some { w with queued := Function.update w.queued t true }
  | .unlock x => some ((w.release t x).goto t pc)
  | .store x next completes => some ((w.store t x next completes).goto t pc)
  | .evaluate a b =>
      some { w.goto t pc with pairs := Function.update w.pairs t (w.pairs t ++ [(a, b)]) }
  | .lockCounters =>
      if w.countersLock = none then some { w.goto t pc with countersLock := some t } else none
  | .count p value => some { w.goto t pc with counters := Function.update w.counters p value }
  | .unlockCounters => some { w.goto t pc with countersLock := none }

/-- The next step of a thread of the given role: its effect and where it leads. -/
def code (s : Storage) (w : World τ) (rand : ℕ) : Role → Pc → Option (Effect × Pc)
  | .traverse matchPred iterCounter pairsCounter, .traverse pc =>
      some ((traverseList s matchPred iterCounter pairsCounter w.next w.counters pc).map
        id .traverse)
  | .swap needSwap swapCounter, .swap pc =>
      some ((doRandomSwap s needSwap swapCounter rand w.next w.counters pc).map id .swap)
  | .monitor, .monitor pc => some ((monitor w.counters pc).map id .monitor)
  | _, _ => none

/-- One step of one thread, with the result of `rand_r` should it call it. -/
def step (v : Variant) (s : Storage) (roles : τ → Role) (w : World τ) (label : τ × ℕ) :
    Option (World τ) :=
  (w.code s label.2 (roles label.1) (w.pc label.1)).bind fun (effect, pc) =>
    w.perform v s roles label.1 pc effect

variable {v : Variant} {s : Storage} {roles : τ → Role} {w next : World τ} {t : τ} {pc : Pc}

omit [DecidableEq τ] [Fintype τ] in
/-- What is true of each step of the three functions is true of the step of a thread. -/
theorem code_cases {motive : Role → Pc → Effect → Pc → Prop} {rand : ℕ} {role : Role}
    {effect : Effect} {pc' : Pc}
    (traverse : ∀ matchPred iterCounter pairsCounter pc,
      motive (.traverse matchPred iterCounter pairsCounter) (.traverse pc)
        (traverseList s matchPred iterCounter pairsCounter w.next w.counters pc).1
        (.traverse (traverseList s matchPred iterCounter pairsCounter w.next w.counters pc).2))
    (swap : ∀ needSwap swapCounter pc,
      motive (.swap needSwap swapCounter) (.swap pc)
        (doRandomSwap s needSwap swapCounter rand w.next w.counters pc).1
        (.swap (doRandomSwap s needSwap swapCounter rand w.next w.counters pc).2))
    (watch : ∀ pc, motive .monitor (.monitor pc) (monitor w.counters pc).1
      (.monitor (monitor w.counters pc).2))
    (coded : w.code s rand role pc = some (effect, pc')) : motive role pc effect pc' := by
  cases role with
  | traverse matchPred iterCounter pairsCounter =>
      cases pc with
      | traverse pc =>
          obtain ⟨rfl, rfl⟩ := Prod.mk.inj (Option.some.inj coded)
          exact traverse matchPred iterCounter pairsCounter pc
      | _ => cases coded
  | swap needSwap swapCounter =>
      cases pc with
      | swap pc =>
          obtain ⟨rfl, rfl⟩ := Prod.mk.inj (Option.some.inj coded)
          exact swap needSwap swapCounter pc
      | _ => cases coded
  | monitor =>
      cases pc with
      | monitor pc =>
          obtain ⟨rfl, rfl⟩ := Prod.mk.inj (Option.some.inj coded)
          exact watch pc
      | _ => cases coded

/-- A call that locks a node ends, or goes to sleep. -/
theorem perform_lock {x : Node} (performed : w.perform v s roles t pc (.lock x) = some next) :
    Available v s roles w t x ∧ next = (w.acquire t x).goto t pc ∨
      ¬ Available v s roles w t x ∧
        next = { w with queued := Function.update w.queued t true } := by
  by_cases available : Available v s roles w t x
  · exact .inl ⟨available, (Option.some.inj ((if_pos available).symm.trans performed)).symm⟩
  · exact .inr ⟨available, (Option.some.inj ((if_neg available).symm.trans performed)).symm⟩

theorem perform_lockCounters (performed : w.perform v s roles t pc .lockCounters = some next) :
    w.countersLock = none ∧ next = { w.goto t pc with countersLock := some t } := by
  by_cases free : w.countersLock = none
  · exact ⟨free, (Option.some.inj ((if_pos free).symm.trans performed)).symm⟩
  · cases (if_neg free).symm.trans performed

/-- A step says nothing about the other threads. -/
theorem perform_others {effect : Effect} {u : τ} (away : u ≠ t)
    (performed : w.perform v s roles t pc effect = some next) :
    next.pc u = w.pc u ∧ next.visited u = w.visited u ∧ next.pairs u = w.pairs u := by
  cases effect with
  | lock x =>
      obtain ⟨_, rfl⟩ | ⟨_, rfl⟩ := perform_lock performed
      · exact ⟨Function.update_of_ne away _ _, Function.update_of_ne away _ _,
          Function.update_of_ne away _ _⟩
      · exact ⟨rfl, rfl, rfl⟩
  | lockCounters =>
      obtain ⟨_, rfl⟩ := perform_lockCounters performed
      exact ⟨Function.update_of_ne away _ _, rfl, rfl⟩
  | evaluate a b =>
      obtain rfl := Option.some.inj performed
      exact ⟨Function.update_of_ne away _ _, rfl, Function.update_of_ne away _ _⟩
  | _ =>
      obtain rfl := Option.some.inj performed
      exact ⟨Function.update_of_ne away _ _, rfl, rfl⟩

/-- A step carries out the effect of the code of its thread. -/
theorem step_cases {label : τ × ℕ} (moved : w.step v s roles label = some next) :
    ∃ effect pc, w.code s label.2 (roles label.1) (w.pc label.1) = some (effect, pc) ∧
      w.perform v s roles label.1 pc effect = some next := by
  obtain ⟨⟨effect, pc⟩, coded, performed⟩ := Option.bind_eq_some_iff.mp moved
  exact ⟨effect, pc, coded, performed⟩

end World

end OperationSystems.NodeList
