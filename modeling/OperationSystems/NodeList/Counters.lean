import OperationSystems.Foundation.Transition
import OperationSystems.NodeList.Threads

/-!
# The counters and their lock

`counters_lock` is held from its acquisition in `inc_long` or `snapshot_counters` to its
release, by one thread at a time, so the value that `inc_long` has read is still the
counter's when it stores.
-/

namespace OperationSystems.NodeList

open Transition

/-- The call of `inc_long` that the thread is in. -/
def Pc.call : Pc → Option IncLong
  | .traverse (.countPair _ _ call) => some call
  | .traverse (.countIteration call) => some call
  | .swap (.count _ _ _ call) => some call
  | _ => none

def IncLong.owns : IncLong → Bool
  | .lock _ => false
  | _ => true

/-- The thread holds `counters_lock`. -/
def Pc.owns : Pc → Bool
  | .traverse (.countPair _ _ call) => call.owns
  | .traverse (.countIteration call) => call.owns
  | .swap (.count _ _ _ call) => call.owns
  | .monitor (.read _) => true
  | .monitor (.unlock _) => true
  | _ => false

/-- What a step with an effect means to the counters, when it leads from one point to
another. -/
def Accounts (counters : Counter → ℤ) (pc pc' : Pc) : Effect → Prop
  | .lockCounters => pc.wantsCounters = true ∧ pc'.owns = true ∧
      ∀ p read, pc'.call ≠ some (.store p read)
  | .count p value => pc'.owns = pc.owns ∧ (∃ read, pc.call = some (.store p read) ∧
      value = read + 1) ∧ ∀ q read, pc'.call ≠ some (.store q read)
  | .unlockCounters => pc.owns = true ∧ pc'.owns = false ∧
      ∀ p read, pc'.call ≠ some (.store p read)
  | _ => pc'.owns = pc.owns ∧ ∀ p read, pc'.call = some (.store p read) → read = counters p

/-- Who is about to store a counter owns the lock. -/
theorem Pc.owns_of_store {pc : Pc} {p : Counter} {read : ℤ}
    (storing : pc.call = some (.store p read)) : pc.owns = true := by
  cases pc with
  | traverse pc =>
      cases pc with
      | countPair a b call => exact Option.some.inj storing ▸ rfl
      | countIteration call => exact Option.some.inj storing ▸ rfl
      | _ => cases storing
  | swap pc =>
      cases pc with
      | count prev a b call => exact Option.some.inj storing ▸ rfl
      | _ => cases storing
  | monitor pc => cases storing

section Code

variable {s : Storage} {next : Node → Option Node} {counters : Counter → ℤ}
  {matchPred needSwap : PairPredicate} {iterCounter pairsCounter swapCounter : Counter}

/-- A step inside a call of `inc_long`, wherever it was made. -/
theorem inside_accounts {Point : Type} (lift : Point → Pc) {within : IncLong → Point} {done : Point}
    (calls : ∀ call, (lift (within call)).call = some call)
    (owns : ∀ call, (lift (within call)).owns = call.owns)
    (wants : ∀ p, (lift (within (.lock p))).wantsCounters = true)
    (left : (lift done).call = none) (free : (lift done).owns = false) (call : IncLong) :
    Accounts counters (lift (within call)) (lift (inside counters call within done).2)
      (inside counters call within done).1 := by
  have idle : ∀ next, (∀ p read, next ≠ IncLong.store p read) →
      ∀ p read, (lift (within next)).call ≠ some (.store p read) := by
    intro next other p read storing
    rw [calls] at storing
    exact other p read (Option.some.inj storing)
  cases call with
  | lock p => exact ⟨wants p, owns (.load p), idle (.load p) nofun⟩
  | load p =>
      have still : (lift (within (.store p (counters p)))).owns =
          (lift (within (.load p))).owns := by
        rw [owns, owns]
        rfl
      refine ⟨still, fun q read storing => ?_⟩
      obtain ⟨rfl, rfl⟩ := IncLong.store.inj (Option.some.inj ((calls _).symm.trans storing))
      rfl
  | store p read =>
      have still : (lift (within (.unlock p))).owns = (lift (within (.store p read))).owns := by
        rw [owns, owns]
        rfl
      exact ⟨still, ⟨read, calls _, rfl⟩, idle (.unlock p) nofun⟩
  | unlock p =>
      refine ⟨owns _, free, fun q read storing => ?_⟩
      cases left.symm.trans storing

/-- The counting of a traversal. -/
theorem traverseList_accounts (pc : TraversePc) :
    Accounts counters (.traverse pc)
      (.traverse (traverseList s matchPred iterCounter pairsCounter next counters pc).2)
      (traverseList s matchPred iterCounter pairsCounter next counters pc).1 := by
  cases pc with
  | readFirst =>
      simp only [traverseList]
      split <;> exact ⟨rfl, nofun⟩
  | readNext a =>
      simp only [traverseList]
      split <;> exact ⟨rfl, nofun⟩
  | evaluate a b =>
      simp only [traverseList]
      split <;> exact ⟨rfl, nofun⟩
  | countPair a b call =>
      exact inside_accounts .traverse (fun _ => rfl) (fun _ => rfl) (fun _ => rfl) rfl rfl call
  | countIteration call =>
      exact inside_accounts .traverse (fun _ => rfl) (fun _ => rfl) (fun _ => rfl) rfl rfl call
  | _ => exact ⟨rfl, nofun⟩

/-- The counting of a swap. -/
theorem doRandomSwap_accounts (rand : ℕ) (pc : SwapPc) :
    Accounts counters (.swap pc)
      (.swap (doRandomSwap s needSwap swapCounter rand next counters pc).2)
      (doRandomSwap s needSwap swapCounter rand next counters pc).1 := by
  cases pc with
  | start =>
      simp only [doRandomSwap]
      split <;> exact ⟨rfl, nofun⟩
  | readFirst index =>
      simp only [doRandomSwap]
      split <;> exact ⟨rfl, nofun⟩
  | loop index i prev a =>
      simp only [doRandomSwap]
      split
      · split <;> exact ⟨rfl, nofun⟩
      · exact ⟨rfl, nofun⟩
  | readB index prev a =>
      simp only [doRandomSwap]
      split <;> exact ⟨rfl, nofun⟩
  | compare index prev a b =>
      simp only [doRandomSwap]
      split <;> exact ⟨rfl, nofun⟩
  | count prev a b call =>
      exact inside_accounts .swap (fun _ => rfl) (fun _ => rfl) (fun _ => rfl) rfl rfl call
  | _ => exact ⟨rfl, nofun⟩

/-- The monitor counts nothing. -/
theorem monitor_accounts (pc : MonitorPc) :
    Accounts counters (.monitor pc) (.monitor (monitor counters pc).2)
      (monitor counters pc).1 := by
  cases pc with
  | read values =>
      simp only [monitor]
      split <;> exact ⟨rfl, nofun⟩
  | lock => exact ⟨rfl, rfl, nofun⟩
  | unlock values => exact ⟨rfl, rfl, nofun⟩

end Code

variable {τ : Type*} {v : Variant} {s : Storage} {roles : τ → Role} {w next : World τ} {t : τ}
  {pc' : Pc} {effect : Effect}

theorem World.code_accounts {rand : ℕ}
    (coded : w.code s rand (roles t) (w.pc t) = some (effect, pc')) :
    Accounts w.counters (w.pc t) pc' effect :=
  code_cases (motive := fun _ pc effect pc' => Accounts w.counters pc pc' effect)
    (fun _ _ _ => traverseList_accounts) (fun _ _ => doRandomSwap_accounts rand) monitor_accounts
    coded

/-- The invariant of `counters_lock` and of the values read under it. -/
structure Counted (w : World τ) : Prop where
  owner : ∀ t, w.countersLock = some t ↔ (w.pc t).owns = true
  fresh : ∀ t p read, (w.pc t).call = some (.store p read) → read = w.counters p

variable [Fintype τ] [DecidableEq τ]

/-- The counters, their lock and the point of the thread after a step. -/
def World.Settles (w next : World τ) (t : τ) (pc' : Pc) : Effect → Prop
  | .lock _ => next.countersLock = w.countersLock ∧ next.counters = w.counters ∧
      (next.pc = Function.update w.pc t pc' ∨ next.pc = w.pc)
  | .lockCounters => w.countersLock = none ∧ next.countersLock = some t ∧
      next.counters = w.counters ∧ next.pc = Function.update w.pc t pc'
  | .count p value => next.countersLock = w.countersLock ∧
      next.counters = Function.update w.counters p value ∧ next.pc = Function.update w.pc t pc'
  | .unlockCounters => next.countersLock = none ∧ next.counters = w.counters ∧
      next.pc = Function.update w.pc t pc'
  | _ => next.countersLock = w.countersLock ∧ next.counters = w.counters ∧
      next.pc = Function.update w.pc t pc'

/-- What an effect means to the lock and the counters. -/
theorem World.perform_settles (performed : w.perform v s roles t pc' effect = some next) :
    w.Settles next t pc' effect := by
  cases effect with
  | lock x =>
      obtain ⟨_, rfl⟩ | ⟨_, rfl⟩ := perform_lock performed
      · exact ⟨rfl, rfl, .inl rfl⟩
      · exact ⟨rfl, rfl, .inr rfl⟩
  | lockCounters =>
      obtain ⟨free, rfl⟩ := perform_lockCounters performed
      exact ⟨free, rfl, rfl, rfl⟩
  | _ =>
      obtain rfl := Option.some.inj performed
      exact ⟨rfl, rfl, rfl⟩

omit [Fintype τ] in
/-- A step after which the thread holds the lock as it did before. -/
theorem Counted.keep (counted : Counted w) (lock : next.countersLock = w.countersLock)
    (counters : next.counters = w.counters) (pcs : next.pc = Function.update w.pc t pc')
    (owns : pc'.owns = (w.pc t).owns)
    (fresh : ∀ p read, pc'.call = some (.store p read) → read = w.counters p) : Counted next := by
  refine ⟨fun u => ?_, fun u p read storing => ?_⟩
  · rw [lock, pcs]
    by_cases self : u = t
    · subst self
      rw [Function.update_self, owns]
      exact counted.owner u
    · rw [Function.update_of_ne self]
      exact counted.owner u
  · rw [pcs] at storing
    rw [counters]
    by_cases self : u = t
    · subst self
      rw [Function.update_self] at storing
      exact fresh p read storing
    · rw [Function.update_of_ne self] at storing
      exact counted.fresh u p read storing

omit [Fintype τ] in
/-- A step after which nobody but the thread can hold the lock, and that does not read. -/
theorem Counted.of_sole (pcs : next.pc = Function.update w.pc t pc')
    (others : ∀ u, u ≠ t → (w.pc u).owns = false)
    (lock : next.countersLock = if pc'.owns = true then some t else none)
    (idle : ∀ p read, pc'.call ≠ some (.store p read)) : Counted next := by
  refine ⟨fun u => ?_, fun u p read storing => ?_⟩
  · rw [lock, pcs]
    by_cases self : u = t
    · subst self
      rw [Function.update_self]
      by_cases owns : pc'.owns = true
      · simp [owns]
      · simp [owns]
    · rw [Function.update_of_ne self, others u self]
      split
      · simp [Ne.symm self]
      · simp
  · rw [pcs] at storing
    by_cases self : u = t
    · subst self
      rw [Function.update_self] at storing
      exact absurd storing (idle p read)
    · rw [Function.update_of_ne self] at storing
      have owns := Pc.owns_of_store storing
      rw [others u self] at owns
      cases owns

omit [Fintype τ] [DecidableEq τ] in
/-- Nobody owns the lock beside the owner. -/
theorem Counted.others (counted : Counted w) (owns : (w.pc t).owns = true) (u : τ) (away : u ≠ t) :
    (w.pc u).owns = false := by
  by_contra also
  have mine := (counted.owner t).mpr owns
  have theirs := (counted.owner u).mpr (by simpa using also)
  exact away (Option.some.inj (theirs.symm.trans mine))

/-- **The step lemma.** The owner of `counters_lock` is the one thread in its section. -/
theorem Counted.step {label : τ × ℕ} (counted : Counted w)
    (moved : w.step v s roles label = some next) : Counted next := by
  obtain ⟨effect, pc', coded, performed⟩ := World.step_cases moved
  have accounts := World.code_accounts coded
  have settles := World.perform_settles performed
  cases effect with
  | lock x =>
      obtain ⟨lock, counters, pcs | same⟩ := settles
      · exact counted.keep lock counters pcs accounts.1 accounts.2
      · refine counted.keep lock counters ?_ rfl (counted.fresh label.1)
        rw [same, Function.update_eq_self]
  | lockCounters =>
      obtain ⟨free, lock, _, pcs⟩ := settles
      obtain ⟨_, owns, idle⟩ := accounts
      refine .of_sole pcs (fun u _ => ?_) (by rw [lock, if_pos owns]) idle
      by_contra also
      have theirs := (counted.owner u).mpr (by simpa using also)
      rw [free] at theirs
      cases theirs
  | count p value =>
      obtain ⟨lock, _, pcs⟩ := settles
      obtain ⟨owns, ⟨read, storing, _⟩, idle⟩ := accounts
      have mine := Pc.owns_of_store storing
      refine .of_sole pcs (counted.others mine) ?_ idle
      rw [lock, if_pos (owns.trans mine)]
      exact (counted.owner label.1).mpr mine
  | unlockCounters =>
      obtain ⟨lock, _, pcs⟩ := settles
      obtain ⟨mine, owns, idle⟩ := accounts
      refine .of_sole pcs (counted.others mine) ?_ idle
      rw [lock, owns]
      rfl
  | _ => exact counted.keep settles.1 settles.2.1 settles.2.2 accounts.1 accounts.2

/-- **The run lemma.** So it is in every reachable state. -/
theorem counted (reached : Reaches (World.step v s roles) (World.start s roles) w) :
    Counted w := by
  refine reached.invariant ⟨fun t => ?_, fun t p read storing => ?_⟩
    fun _ _ _ counted _ moved => counted.step moved
  · change none = some t ↔ (roles t).begin.owns = true
    cases roles t <;> simp [Role.begin, Pc.owns]
  · change (roles t).begin.call = _ at storing
    cases role : roles t <;> rw [role] at storing <;> cases storing

end OperationSystems.NodeList
