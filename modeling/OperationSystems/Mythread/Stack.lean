import OperationSystems.Foundation.Tally
import OperationSystems.Mythread.Thread

/-!
# Who unmaps the stack

The exchange of `joined` lets at most one call unmap the stack, but the created thread
only loads `joined` when it decides to unmap it itself. What each side has unmapped and
still owes is counted apart: the calls answer for the 1 in `joined`, the created thread
for what it has read.
-/

namespace OperationSystems.Mythread

open Tally

/-- 1 for a call that has found `joined` clear and has not yet unmapped the stack. -/
def owes : CallPc → ℕ
  | .unmap _ => 1
  | _ => 0

/-- A join begins with its load and a detach with its store. -/
theorem Call.begin_cases (call : Call) :
    call.begin = .joinLoadDetached ∨ call.begin = .storeDetached := by
  cases call
  · exact .inl rfl
  · exact .inr rfl

namespace World

variable {ι : Type} {w next : World ι} {call : ι → Call} {value : Word}

/-- How often calls have unmapped the stack. -/
def byCalls (w : World ι) : ℕ := w.unmaps.countP Option.isSome

/-- How often the created thread has unmapped it. -/
def bySelf (w : World ι) : ℕ := w.unmaps.countP Option.isNone

/-- The stack is unmapped by calls or by the created thread. -/
theorem length_unmaps (w : World ι) : w.unmaps.length = w.byCalls + w.bySelf := by
  rw [List.length_eq_countP_add_countP Option.isSome, byCalls, bySelf]
  congr 1
  refine List.countP_congr fun agent _ => ?_
  cases agent <;> simp

/-- The created thread has found itself detached and not joined. -/
def Abandoned (w : World ι) : Prop := w.entry = .unmap ∨ 0 < w.bySelf

/-- The created thread has not yet loaded `detached`. -/
def Undecided (w : World ι) : Prop :=
  w.entry = .running ∨ w.entry = .storeCompleted ∨ w.entry = .wake ∨ w.entry = .loadDetached

/-- Somebody has decided to unmap the stack, or the created thread is about to. -/
def Released (w : World ι) : Prop :=
  w.joined = true ∨ w.Abandoned ∨ w.entry = .loadJoined ∨ (w.detached = true ∧ w.Undecided)

/-- The call will load `completed` and exchange `joined` if it is set, or has loaded it. -/
def Releasing (w : World ι) (i : ι) : Prop :=
  w.caller i = .testCompleted ∨ ∃ out, w.caller i = .exchange out

/-- What the created thread has done so far. -/
structure Entered (w : World ι) : Prop where
  early : w.entry ≠ .leaving → w.entry ≠ .ended → w.bySelf = 0
  once : w.bySelf ≤ 1
  completed : w.completed = false → w.entry = .running ∨ w.entry = .storeCompleted

/-- What the calls have done so far. -/
structure Called [Fintype ι] (w : World ι) : Prop where
  counted : w.byCalls + tally owes w.caller = w.joined.toNat
  ended : ∀ i result out, w.caller i = .returned result out →
    w.joined = true ∨ w.detached = true
  tests : ∀ i, w.caller i = .testCompleted → w.detached = true
  detached : w.detached = true → w.Released ∨ ∃ i, w.Releasing i

/-- The created thread has done nothing. -/
theorem Entered.start : (start call).Entered where
  early := fun _ _ => rfl
  once := Nat.zero_le 1
  completed := fun _ => .inl rfl

/-- The created thread moves on before it has unmapped anything. -/
theorem Entered.goto (entered : w.Entered) (early : w.entry ≠ .leaving)
    (going : w.entry ≠ .ended) (unmaps : next.unmaps = w.unmaps)
    (completed : next.completed = false → next.entry = .running ∨ next.entry = .storeCompleted) :
    next.Entered := by
  have nothing : next.bySelf = 0 := by
    unfold bySelf
    rw [unmaps]
    exact entered.early early going
  exact ⟨fun _ _ => nothing, nothing.le.trans (Nat.zero_le 1), completed⟩

/-- Whoever is released stays so while the created thread does not move. -/
theorem Released.mono (released : w.Released) (joined : w.joined = true → next.joined = true)
    (detached : w.detached = true → next.detached = true) (entry : next.entry = w.entry)
    (self : next.bySelf = w.bySelf) : next.Released := by
  obtain set | alone | loads | ⟨set, early⟩ := released
  · exact .inl (joined set)
  · refine .inr (.inl ?_)
    unfold Abandoned
    rw [entry, self]
    exact alone
  · exact .inr (.inr (.inl (entry.trans loads)))
  · refine .inr (.inr (.inr ⟨detached set, ?_⟩))
    unfold Undecided
    rw [entry]
    exact early

/-- When all is over, the stack has been unmapped for `joined` and for what the created
thread has read. -/
theorem Over.length_unmaps [Fintype ι] (finished : w.Over) (called : w.Called) :
    w.unmaps.length = w.joined.toNat + w.bySelf := by
  have nothing : tally owes w.caller = 0 := by
    refine tally_eq_zero fun i => ?_
    obtain ⟨result, out, returned⟩ := finished.2 i
    rw [returned]
    rfl
  have counted := called.counted
  rw [w.length_unmaps]
  omega

/-- When all is over and there was a call, somebody has unmapped the stack. -/
theorem Over.released [Fintype ι] [Nonempty ι] (finished : w.Over) (called : w.Called) :
    w.joined = true ∨ 0 < w.bySelf := by
  have released : w.Released := by
    obtain ⟨result, out, returned⟩ := finished.2 (Classical.arbitrary ι)
    obtain joined | detached := called.ended _ result out returned
    · exact .inl joined
    · obtain released | ⟨i, pending⟩ := called.detached detached
      · exact released
      · obtain ⟨result, out, returned⟩ := finished.2 i
        obtain tests | ⟨out, exchanges⟩ := pending
        · cases tests.symm.trans returned
        · cases exchanges.symm.trans returned
  simpa [Released, Abandoned, Undecided, finished.1] using released

variable [DecidableEq ι]

/-- What a step of a call can do: it goes on without changing a flag, as what it has read
says; it sets `detached`; it exchanges `joined`; or it unmaps the stack. -/
theorem stepCaller_cases {i : ι} (stepped : w.stepCaller call i = some next) :
    (∃ pc, next = w.goto i pc ∧ owes (w.caller i) = 0 ∧ owes pc = 0 ∧
      (∀ result out, pc = .returned result out →
        w.caller i = .joinLoadDetached ∧ w.detached = true ∨
          w.caller i = .testCompleted ∧ w.completed = false) ∧
      pc ≠ .testCompleted ∧
      (w.Releasing i → (∃ out, pc = .exchange out) ∨ w.completed = false)) ∨
    (w.caller i = .storeDetached ∧
      next = { w.goto i .testCompleted with detached := true }) ∨
    (∃ out, w.caller i = .exchange out ∧ next =
      { w.goto i (if w.joined then .returned 0 out else .unmap out) with joined := true }) ∨
    (∃ out, w.caller i = .unmap out ∧ next =
      { w.goto i (.returned 0 out) with unmaps := w.unmaps ++ [some i] }) := by
  unfold stepCaller at stepped
  cases place : w.caller i with
  | returned result out =>
      rw [place] at stepped
      cases stepped
  | storeDetached =>
      rw [place] at stepped
      exact .inr (.inl ⟨rfl, (Option.some.inj stepped).symm⟩)
  | exchange out =>
      rw [place] at stepped
      exact .inr (.inr (.inl ⟨out, rfl, (Option.some.inj stepped).symm⟩))
  | unmap out =>
      rw [place] at stepped
      exact .inr (.inr (.inr ⟨out, rfl, (Option.some.inj stepped).symm⟩))
  | joinLoadDetached =>
      rw [place] at stepped
      refine .inl ⟨_, (Option.some.inj stepped).symm, rfl, ?_⟩
      cases w.detached <;> simp [owes, Releasing, place]
  | loadCompleted =>
      rw [place] at stepped
      refine .inl ⟨_, (Option.some.inj stepped).symm, rfl, ?_⟩
      cases w.completed <;> simp [owes, Releasing, place]
  | testCompleted =>
      rw [place] at stepped
      refine .inl ⟨_, (Option.some.inj stepped).symm, rfl, ?_⟩
      cases w.completed <;> simp [owes, Releasing]
  | wait =>
      rw [place] at stepped
      refine .inl ⟨_, (Option.some.inj stepped).symm, rfl, ?_⟩
      cases w.completed <;> simp [owes, Releasing, place]
  | asleep =>
      rw [place] at stepped
      exact .inl ⟨_, (Option.some.inj stepped).symm, rfl, by simp [owes, Releasing, place]⟩
  | readRetval =>
      rw [place] at stepped
      exact .inl ⟨_, (Option.some.inj stepped).symm, rfl, by simp [owes, Releasing, place]⟩

variable [Fintype ι]

/-- A `futex_wake` only makes sleepers go on. -/
theorem futexWake_cases {n : ℕ} {woken : Finset ι} (done : w.futexWake n woken = some next) :
    (∀ i, next.caller i = w.caller i ∨ w.caller i = .asleep ∧ next.caller i = .loadCompleted) ∧
      next = { w with caller := next.caller } := by
  unfold futexWake at done
  split_ifs at done with wakes
  obtain rfl := Option.some.inj done
  refine ⟨fun i => ?_, rfl⟩
  by_cases member : i ∈ woken
  · have asleep : w.caller i = .asleep := (Finset.mem_filter.mp (wakes.1 member)).2
    exact .inr ⟨asleep, if_pos member⟩
  · exact .inl (if_neg member)

/-- What a step of the created thread can do. The calls only change where it wakes
sleepers. -/
theorem stepEntry_cases {woken : Finset ι} (stepped : w.stepEntry value woken = some next) :
    (w.entry = .running ∧ next = { w with retval := value, entry := .storeCompleted }) ∨
    (w.entry = .storeCompleted ∧ next = { w with completed := true, entry := .wake }) ∨
    (w.entry = .wake ∧ (∀ i, next.caller i = w.caller i ∨
        w.caller i = .asleep ∧ next.caller i = .loadCompleted) ∧
      next = { w with entry := .loadDetached, caller := next.caller }) ∨
    (w.entry = .loadDetached ∧
      next = { w with entry := if w.detached then .loadJoined else .leaving }) ∨
    (w.entry = .loadJoined ∧ next = { w with entry := if w.joined then .leaving else .unmap }) ∨
    (w.entry = .unmap ∧ next = { w with unmaps := w.unmaps ++ [none], entry := .leaving }) ∨
    (w.entry = .leaving ∧ next = { w with entry := .ended }) := by
  unfold stepEntry at stepped
  cases place : w.entry <;> rw [place] at stepped
  case wake =>
    obtain ⟨after, done, rfl⟩ := Option.map_eq_some_iff.mp stepped
    obtain ⟨callers, whole⟩ := futexWake_cases done
    refine .inr (.inr (.inl ⟨rfl, callers, ?_⟩))
    rw [whole]
  case ended => cases stepped
  all_goals
    obtain rfl := Option.some.inj stepped
    simp

/-- **The step lemma** of the created thread. -/
theorem Entered.step (entered : w.Entered) {woken : Finset ι}
    (stepped : w.stepEntry value woken = some next) : next.Entered := by
  have done : w.entry ≠ .running → w.entry ≠ .storeCompleted → w.completed ≠ false := by
    intro one two clear
    exact (entered.completed clear).elim one two
  obtain ⟨place, rfl⟩ | ⟨place, rfl⟩ | ⟨place, _, whole⟩ | ⟨place, rfl⟩ | ⟨place, rfl⟩ |
    ⟨place, rfl⟩ | ⟨place, rfl⟩ := stepEntry_cases stepped
  · exact entered.goto (by simp [place]) (by simp [place]) rfl fun _ => .inr rfl
  · exact entered.goto (by simp [place]) (by simp [place]) rfl fun clear => by cases clear
  · rw [whole]
    exact entered.goto (by simp [place]) (by simp [place]) rfl fun clear =>
      absurd clear (done (by simp [place]) (by simp [place]))
  · exact entered.goto (by simp [place]) (by simp [place]) rfl fun clear =>
      absurd clear (done (by simp [place]) (by simp [place]))
  · exact entered.goto (by simp [place]) (by simp [place]) rfl fun clear =>
      absurd clear (done (by simp [place]) (by simp [place]))
  · have nothing := entered.early (by simp [place]) (by simp [place])
    refine ⟨fun early => absurd rfl early, ?_, fun clear =>
      absurd clear (done (by simp [place]) (by simp [place]))⟩
    unfold bySelf at nothing ⊢
    rw [List.countP_append, nothing]
    exact le_rfl
  · exact ⟨fun _ going => absurd rfl going, entered.once, fun clear =>
      absurd clear (done (by simp [place]) (by simp [place]))⟩

/-- A step of the created thread leaves the calls alone, but for sleepers it wakes. -/
theorem stepEntry_frame {woken : Finset ι} (stepped : w.stepEntry value woken = some next) :
    (∀ i, next.caller i = w.caller i ∨
      w.caller i = .asleep ∧ next.caller i = .loadCompleted) ∧
    next.joined = w.joined ∧ next.detached = w.detached ∧ next.byCalls = w.byCalls := by
  obtain ⟨_, rfl⟩ | ⟨_, rfl⟩ | ⟨_, callers, whole⟩ | ⟨_, rfl⟩ | ⟨_, rfl⟩ | ⟨_, rfl⟩ |
    ⟨_, rfl⟩ := stepEntry_cases stepped
  case inr.inr.inl =>
    refine ⟨callers, ?_⟩
    rw [whole]
    exact ⟨rfl, rfl, rfl⟩
  case inr.inr.inr.inr.inr.inl =>
    exact ⟨fun _ => .inl rfl, rfl, rfl, by simp [byCalls]⟩
  all_goals exact ⟨fun _ => .inl rfl, rfl, rfl, rfl⟩

/-- What is released stays so when the created thread moves. -/
theorem Released.stepEntry (released : w.Released) {woken : Finset ι}
    (stepped : w.stepEntry value woken = some next) : next.Released := by
  unfold Released Abandoned Undecided at released ⊢
  obtain ⟨place, rfl⟩ | ⟨place, rfl⟩ | ⟨place, _, whole⟩ | ⟨place, rfl⟩ | ⟨place, rfl⟩ |
    ⟨place, rfl⟩ | ⟨place, rfl⟩ := stepEntry_cases stepped
  · simpa [place, bySelf] using released
  · simpa [place, bySelf] using released
  · rw [whole]
    simpa [place, bySelf] using released
  · cases set : w.detached
    · simpa [place, bySelf, set] using released
    · exact .inr (.inr (.inl rfl))
  · cases set : w.joined
    · exact .inr (.inl (.inl rfl))
    · exact .inl rfl
  · exact .inr (.inl (.inr (by simp [bySelf])))
  · simpa [place, bySelf] using released

theorem Called.stepEntry (called : w.Called) {woken : Finset ι}
    (stepped : w.stepEntry value woken = some next) : next.Called := by
  obtain ⟨callers, joined, detached, calls⟩ := stepEntry_frame stepped
  have back : ∀ {i pc}, pc ≠ .loadCompleted → next.caller i = pc → w.caller i = pc := by
    intro i pc other now
    obtain same | ⟨_, woken⟩ := callers i
    · exact same.symm.trans now
    · exact absurd (now.symm.trans woken) other
  refine ⟨?_, fun i result out now => ?_, fun i now => ?_, fun set => ?_⟩
  · have same : tally owes next.caller = tally owes w.caller := by
      refine Finset.sum_congr rfl fun i _ => ?_
      obtain same | ⟨asleep, woken⟩ := callers i
      · rw [same]
      · rw [asleep, woken]
        rfl
    rw [calls, same, joined]
    exact called.counted
  · rw [joined, detached]
    exact called.ended i result out (back (by simp) now)
  · rw [detached]
    exact called.tests i (back (by simp) now)
  · obtain released | ⟨i, tests | ⟨out, exchanges⟩⟩ := called.detached (detached ▸ set)
    · exact .inl (released.stepEntry stepped)
    · refine .inr ⟨i, .inl ?_⟩
      obtain same | ⟨asleep, _⟩ := callers i
      · exact same.trans tests
      · cases tests.symm.trans asleep
    · refine .inr ⟨i, .inr ⟨out, ?_⟩⟩
      obtain same | ⟨asleep, _⟩ := callers i
      · exact same.trans exchanges
      · cases exchanges.symm.trans asleep

theorem Called.stepCaller (called : w.Called) (entered : w.Entered) {i : ι}
    (stepped : w.stepCaller call i = some next) : next.Called := by
  have moves := fun pc => tally_update owes w.caller i pc
  obtain ⟨pc, rfl, before, after, returns, tests, releasing⟩ | ⟨place, rfl⟩ | ⟨out, place, rfl⟩ |
    ⟨out, place, rfl⟩ := stepCaller_cases stepped
  · refine ⟨?_, fun j result out now => ?_, fun j now => ?_, fun set => ?_⟩
    · have turn := moves pc
      have counted := called.counted
      change w.byCalls + tally owes (Function.update w.caller i pc) = w.joined.toNat
      omega
    · obtain ⟨rfl, is⟩ | ⟨_, there⟩ := caller_goto_cases now
      · obtain ⟨_, set⟩ | ⟨place, _⟩ := returns result out is
        · exact .inr set
        · exact .inr (called.tests j place)
      · exact called.ended j result out there
    · obtain ⟨_, is⟩ | ⟨_, there⟩ := caller_goto_cases now
      · exact absurd is tests
      · exact called.tests j there
    · obtain released | ⟨j, pending⟩ := called.detached set
      · exact .inl (released.mono id id rfl rfl)
      · by_cases same : j = i
        · subst same
          obtain ⟨out, exchanges⟩ | clear := releasing pending
          · exact .inr ⟨j, .inr ⟨out, caller_goto_self.trans exchanges⟩⟩
          · -- it found the thread running, which will find itself detached
            refine .inl (.inr (.inr (.inr ⟨set, ?_⟩)))
            obtain place | place := entered.completed clear
            · exact .inl place
            · exact .inr (.inl place)
        · refine .inr ⟨j, ?_⟩
          unfold Releasing
          rw [caller_goto_of_ne same]
          exact pending
  · refine ⟨?_, fun j result out _ => .inr rfl, fun j _ => rfl, fun _ => ?_⟩
    · have turn := moves .testCompleted
      have counted := called.counted
      rw [place] at turn
      change w.byCalls + tally owes (Function.update w.caller i .testCompleted) = w.joined.toNat
      simp only [owes] at turn
      omega
    · exact .inr ⟨i, .inl caller_goto_self⟩
  · refine ⟨?_, fun j result out _ => .inl rfl, fun j now => ?_, fun _ => .inl (.inl rfl)⟩
    · have counted := called.counted
      have turn := moves (if w.joined then .returned 0 out else .unmap out)
      rw [place] at turn
      change w.byCalls + tally owes (Function.update w.caller i _) = 1
      cases set : w.joined
      all_goals
        simp only [set, owes, Bool.false_eq_true, ↓reduceIte, Bool.toNat_true,
          Bool.toNat_false] at turn counted ⊢
        omega
    · obtain ⟨_, is⟩ | ⟨_, there⟩ := caller_goto_cases (w := w) now
      · split_ifs at is
      · exact called.tests j there
  · have counted := called.counted
    have turn := moves (.returned 0 out)
    rw [place] at turn
    simp only [owes] at turn
    have joined : w.joined = true := by
      by_contra clear
      rw [Bool.not_eq_true] at clear
      rw [clear, Bool.toNat_false] at counted
      omega
    refine ⟨?_, fun j result out _ => .inl joined, fun j now => ?_, fun set => ?_⟩
    · have more : List.countP Option.isSome (w.unmaps ++ [some i]) = w.byCalls + 1 := by
        simp [byCalls]
      change List.countP Option.isSome (w.unmaps ++ [some i]) +
        tally owes (Function.update w.caller i (.returned 0 out)) = w.joined.toNat
      omega
    · obtain ⟨_, is⟩ | ⟨_, there⟩ := caller_goto_cases (w := w) now
      · cases is
      · exact called.tests j there
    · exact .inl (.inl joined)

/-- **The run lemma** of both. -/
theorem reached_done (reached : Transition.Reaches (step value call) (start call) w) :
    w.Entered ∧ w.Called := by
  refine reached.invariant (motive := fun w => w.Entered ∧ w.Called) ⟨.start, ?_⟩ ?_
  · refine ⟨?_, fun i result out now => ?_, fun i now => ?_, fun set => ?_⟩
    · have nothing : tally owes (start call).caller = 0 := by
        refine tally_eq_zero fun i => ?_
        change owes (call i).begin = 0
        obtain begins | begins := (call i).begin_cases <;> rw [begins] <;> rfl
      rw [nothing]
      rfl
    · obtain begins | begins := (call i).begin_cases <;> cases begins.symm.trans now
    · obtain begins | begins := (call i).begin_cases <;> cases begins.symm.trans now
    · cases set
  · rintro w (woken | i) next ⟨entered, called⟩ _ stepped
    · exact ⟨entered.step stepped, called.stepEntry stepped⟩
    · refine ⟨?_, called.stepCaller entered stepped⟩
      obtain ⟨pc, rfl, _⟩ | ⟨_, rfl⟩ | ⟨_, _, rfl⟩ | ⟨out, _, rfl⟩ := stepCaller_cases stepped
      case inr.inr.inr =>
        have same : ({ w.goto i (.returned 0 out) with unmaps := w.unmaps ++ [some i] } :
            World ι).bySelf = w.bySelf := by
          simp [bySelf]
        exact ⟨fun one two => same.trans (entered.early one two), same.trans_le entered.once,
          entered.completed⟩
      all_goals exact ⟨entered.early, entered.once, entered.completed⟩

/-! ## Unmapped once -/

/-- No call exchanges `joined` for the first time after the created thread has found
itself detached and not joined. -/
def Unraced (w : World ι) : Label ι → Prop
  | .entry _ => True
  | .caller i => (∃ out, w.caller i = .exchange out) → w.joined = false → ¬ w.Abandoned

/-- Only the exchange of `joined` sets it. -/
theorem step_joined {label : Label ι} (stepped : w.step value call label = some next) :
    next.joined = w.joined ∨
      ∃ i out, label = .caller i ∧ w.caller i = .exchange out ∧ next.joined = true := by
  cases label with
  | entry woken => exact .inl (stepEntry_frame stepped).2.1
  | caller i =>
      obtain ⟨pc, rfl, _⟩ | ⟨_, rfl⟩ | ⟨out, place, rfl⟩ | ⟨_, _, rfl⟩ := stepCaller_cases stepped
      · exact .inl rfl
      · exact .inl rfl
      · exact .inr ⟨i, out, rfl, place, rfl⟩
      · exact .inl rfl

/-- Only the created thread's load of `joined` makes it find itself abandoned. -/
theorem step_abandoned {label : Label ι} (stepped : w.step value call label = some next)
    (after : next.Abandoned) : w.Abandoned ∨ w.joined = false := by
  cases label with
  | entry woken =>
      unfold Abandoned at after ⊢
      obtain ⟨place, rfl⟩ | ⟨place, rfl⟩ | ⟨place, _, whole⟩ | ⟨place, rfl⟩ | ⟨place, rfl⟩ |
        ⟨place, rfl⟩ | ⟨place, rfl⟩ := stepEntry_cases stepped
      · exact .inl (.inr (by simpa [bySelf] using after))
      · exact .inl (.inr (by simpa [bySelf] using after))
      · rw [whole] at after
        exact .inl (.inr (by simpa [bySelf] using after))
      · cases set : w.detached <;> exact .inl (.inr (by simpa [bySelf, set] using after))
      · cases set : w.joined
        · exact .inr rfl
        · exact .inl (.inr (by simpa [bySelf, set] using after))
      · exact .inl (.inl place)
      · exact .inl (.inr (by simpa [bySelf] using after))
  | caller i =>
      left
      obtain ⟨pc, rfl, _⟩ | ⟨_, rfl⟩ | ⟨_, _, rfl⟩ | ⟨_, _, rfl⟩ := stepCaller_cases stepped
      · exact after
      · exact after
      · exact after
      · simpa [Abandoned, bySelf, goto] using after

/-- Once abandoned, the created thread stays so. -/
theorem Abandoned.step (abandoned : w.Abandoned) (entered : w.Entered) {label : Label ι}
    (stepped : w.step value call label = some next) : next.Abandoned := by
  unfold Abandoned at abandoned ⊢
  cases label with
  | entry woken =>
      have past : w.entry = .unmap ∨ w.entry = .leaving ∨ w.entry = .ended := by
        obtain place | unmapped := abandoned
        · exact .inl place
        · by_contra early
          push Not at early
          exact absurd (entered.early early.2.1 early.2.2) unmapped.ne'
      obtain ⟨place, rfl⟩ | ⟨place, rfl⟩ | ⟨place, _, whole⟩ | ⟨place, rfl⟩ | ⟨place, rfl⟩ |
        ⟨place, rfl⟩ | ⟨place, rfl⟩ := stepEntry_cases stepped
      case inr.inr.inr.inr.inr.inl => exact .inr (by simp [bySelf])
      case inr.inr.inr.inr.inr.inr => exact .inr (by simpa [bySelf, place] using abandoned)
      all_goals simp [place] at past
  | caller i =>
      obtain ⟨pc, rfl, _⟩ | ⟨_, rfl⟩ | ⟨_, _, rfl⟩ | ⟨_, _, rfl⟩ := stepCaller_cases stepped
      · exact abandoned
      · exact abandoned
      · exact abandoned
      · simpa [bySelf, goto] using abandoned

/-- In unraced runs `joined` is never set with the created thread abandoned. -/
theorem not_both (reached : Transition.ReachesBy (step value call) Unraced (start call) w) :
    ¬ (w.joined = true ∧ w.Abandoned) := by
  refine reached.invariant (motive := fun w => ¬ (w.joined = true ∧ w.Abandoned))
    (fun both => by cases both.1) ?_
  rintro w label next never unraced stepped ⟨set, alone⟩
  obtain before | clear := step_abandoned stepped alone
  · obtain same | ⟨i, out, rfl, place, _⟩ := step_joined stepped
    · exact never ⟨same.symm.trans set, before⟩
    · cases clear : w.joined
      · exact unraced ⟨out, place⟩ clear before
      · exact never ⟨clear, before⟩
  · obtain same | ⟨i, out, rfl, place, _⟩ := step_joined stepped
    · rw [same, clear] at set
      cases set
    · refine unraced ⟨out, place⟩ clear ?_
      -- the step of a call does not abandon the created thread
      obtain ⟨pc, rfl, _⟩ | ⟨_, rfl⟩ | ⟨_, _, rfl⟩ | ⟨_, at', rfl⟩ := stepCaller_cases stepped
      · exact alone
      · exact alone
      · exact alone
      · cases place.symm.trans at'

/-- **When the stack is unmapped once.** In runs in which no call exchanges `joined` for
the first time after the created thread has found itself detached and not joined, the
stack has been unmapped once when the created thread and all calls have ended; and in
every run with such a step it has then been unmapped twice. -/
theorem unmapped_once_iff_unraced [Nonempty ι] :
    (∀ w, Transition.ReachesBy (step value call) Unraced (start call) w → w.Over →
      w.unmaps.length = 1) ∧
    (∀ w label next final, Transition.Reaches (step value call) (start call) w →
      ¬ w.Unraced label → w.step value call label = some next →
        Transition.Reaches (step value call) next final → final.Over →
          final.unmaps.length = 2) := by
  refine ⟨fun w reached finished => ?_,
    fun w label next final reached raced stepped later finished => ?_⟩
  · obtain ⟨entered, called⟩ := reached_done reached.reaches
    have never := not_both reached
    have once := entered.once
    rw [finished.length_unmaps called]
    obtain joined | unmapped := finished.released called
    · have none : w.bySelf = 0 := by
        by_contra some
        exact never ⟨joined, .inr (Nat.pos_of_ne_zero some)⟩
      rw [joined, none]
      rfl
    · have clear : w.joined = false := by
        by_contra set
        exact never ⟨by simpa using set, .inr unmapped⟩
      rw [clear, Bool.toNat_false]
      omega
  · have both : next.joined = true ∧ next.Abandoned := by
      cases label with
      | entry woken => exact absurd trivial raced
      | caller i =>
          simp only [Unraced, not_forall, not_not] at raced
          obtain ⟨⟨out, place⟩, _, alone⟩ := raced
          refine ⟨?_, alone.step (reached_done reached).1 stepped⟩
          change stepCaller call w i = some next at stepped
          unfold stepCaller at stepped
          rw [place] at stepped
          obtain rfl := Option.some.inj stepped
          rfl
    have kept : final.joined = true ∧ final.Abandoned ∧
        Transition.Reaches (step value call) (start call) final := by
      refine later.invariant (motive := fun w => w.joined = true ∧ w.Abandoned ∧
        Transition.Reaches (step value call) (start call) w)
        ⟨both.1, both.2, reached.next label stepped⟩ ?_
      rintro w label next ⟨joined, alone, reached⟩ _ stepped
      refine ⟨?_, alone.step (reached_done reached).1 stepped, reached.next label stepped⟩
      obtain same | ⟨_, _, _, _, set⟩ := step_joined stepped
      · exact same.trans joined
      · exact set
    obtain ⟨joined, alone, reached⟩ := kept
    obtain ⟨entered, called⟩ := reached_done reached
    have once := entered.once
    have unmapped : 0 < final.bySelf := by
      obtain place | unmapped := alone
      · cases finished.1.symm.trans place
      · exact unmapped
    rw [finished.length_unmaps called, joined, Bool.toNat_true]
    omega

/-- The thread finds itself detached and not joined, and then `mythread_detach` finds it
completed. -/
def racedDetach : List (Label (Fin 1)) :=
  [.caller 0] ++ List.replicate 5 (.entry ∅) ++ [.caller 0]

/-- The theorem at a join behind the thread's end, and at a raced detach. -/
theorem unmapped_once_iff_unraced_run :
    (∃ w, Transition.ReachesBy (step 7 fun _ : Fin 1 => .join true) Unraced
        (start fun _ => .join true) w ∧ w.Over ∧ w.unmaps.length = 1) ∧
    (∃ w, Transition.Reaches (step 7 fun _ : Fin 1 => .detach) (start fun _ => .detach) w ∧
      w.Over ∧ w.unmaps.length = 2) := by
  have joined : ((Transition.run (Transition.guarded (step 7 fun _ : Fin 1 => .join true)
      fun w _ => decide (w.entry ≠ .unmap ∧ w.bySelf = 0)) (start fun _ => .join true)
      (List.replicate 5 (.entry ∅) ++ List.replicate 5 (.caller 0))).map fun w =>
        (w.entry, w.caller 0)) = some (.ended, .returned 0 (some 7)) := by decide +kernel
  obtain ⟨w, ran, places⟩ := Option.map_eq_some_iff.mp joined
  simp only [Prod.mk.injEq] at places
  have finished : w.Over :=
    ⟨places.1, fun i => ⟨0, some 7, by rw [Fin.fin_one_eq_zero i, places.2]⟩⟩
  have unraced : Transition.ReachesBy (step 7 fun _ : Fin 1 => .join true) Unraced
      (start fun _ => .join true) w := by
    refine .of_guarded ran (fun v label passed => ?_) .start
    obtain ⟨place, unmapped⟩ := of_decide_eq_true passed
    cases label with
    | entry woken => trivial
    | caller i => exact fun _ _ abandoned => abandoned.elim place fun some => some.ne' unmapped
  refine ⟨⟨w, unraced, finished, unmapped_once_iff_unraced.1 w unraced finished⟩, ?_⟩
  have raced : ((Transition.run (step 7 fun _ : Fin 1 => .detach) (start fun _ => .detach)
      racedDetach).bind fun v =>
        (v.step 7 (fun _ => .detach) (.caller 0)).bind fun next =>
          (Transition.run (step 7 fun _ => .detach) next
            [.entry ∅, .entry ∅, .caller 0]).map fun w =>
              (v.entry, v.caller 0, v.joined, w.entry, w.caller 0)) =
      some (.unmap, .exchange none, false, .ended, .returned 0 none) := by decide +kernel
  obtain ⟨v, went, rest⟩ := Option.bind_eq_some_iff.mp raced
  obtain ⟨next, stepped, rest⟩ := Option.bind_eq_some_iff.mp rest
  obtain ⟨w, later, places⟩ := Option.map_eq_some_iff.mp rest
  simp only [Prod.mk.injEq] at places
  obtain ⟨decided, exchanges, clear, ended, returned⟩ := places
  have reached : Transition.Reaches (step 7 fun _ : Fin 1 => .detach) (start fun _ => .detach) v :=
    .of_run went .start
  have finished : w.Over := ⟨ended, fun i => ⟨0, none, by rw [Fin.fin_one_eq_zero i, returned]⟩⟩
  have behind : Transition.Reaches (step 7 fun _ : Fin 1 => .detach) next w := .of_run later .start
  refine ⟨w, (reached.next _ stepped).trans behind, finished,
    unmapped_once_iff_unraced.2 v (.caller 0) next w reached (fun unraced => ?_) stepped
      behind finished⟩
  exact unraced ⟨none, exchanges⟩ clear (.inl decided)

/-- A thread and one `mythread_detach` that both unmap the stack. -/
theorem stack_unmapped_twice :
    ¬ ∀ w, Transition.Reaches (step 0 fun _ : Fin 1 => .detach) (start fun _ => .detach) w →
      w.Over → w.unmaps.length = 1 := by
  intro once
  have raced : ((Transition.run (step 0 fun _ : Fin 1 => .detach) (start fun _ => .detach)
      (racedDetach ++ [.caller 0, .caller 0, .entry ∅, .entry ∅])).map fun w =>
        (w.entry, w.caller 0, w.unmaps)) = some (.ended, .returned 0 none, [some 0, none]) := by
    decide +kernel
  obtain ⟨w, ran, places⟩ := Option.map_eq_some_iff.mp raced
  simp only [Prod.mk.injEq] at places
  obtain ⟨ended, returned, unmaps⟩ := places
  have finished : w.Over := ⟨ended, fun i => ⟨0, none, by rw [Fin.fin_one_eq_zero i, returned]⟩⟩
  have one := once w (.of_run ran .start) finished
  rw [unmaps] at one
  cases one

/-! ## Never under the thread -/

/-- The stack is only unmapped once the created thread has nothing left to do on it. -/
def Safe (w : World ι) : Prop := w.unmaps ≠ [] → w.entry = .ended

/-- The created thread never finds itself detached and not joined, and `joined` is only
exchanged for the first time when the thread has ended. -/
def Late (w : World ι) : Label ι → Prop
  | .entry _ => w.entry = .loadJoined → w.joined = true
  | .caller i => (∃ out, w.caller i = .exchange out) → w.joined = false → w.entry = .ended

/-- What holds of the stack while all steps are late: nobody is about to unmap it early. -/
structure Kept (w : World ι) : Prop where
  safe : w.Safe
  self : w.entry ≠ .unmap
  calls : ∀ i out, w.caller i = .unmap out → w.entry = .ended

omit [DecidableEq ι] [Fintype ι] in
/-- Nothing has been unmapped, and no call begins by unmapping. -/
theorem Kept.start : (start call).Kept where
  safe := fun unmapped => absurd rfl unmapped
  self := by
    rintro ⟨⟩
  calls := fun i out place => by
    have begun : (call i).begin = .unmap out := place
    obtain begins | begins := (call i).begin_cases <;> cases begins.symm.trans begun

/-- **The step lemma** for late steps. -/
theorem Kept.step (kept : w.Kept) {label : Label ι} (late : w.Late label)
    (stepped : w.step value call label = some next) : next.Kept := by
  cases label with
  | entry woken =>
      obtain ⟨callers, _, _, _⟩ := stepEntry_frame stepped
      have running : w.entry ≠ .ended := by
        intro ended
        change w.stepEntry value woken = some next at stepped
        unfold stepEntry at stepped
        rw [ended] at stepped
        cases stepped
      have calls : ∀ i out, next.caller i ≠ .unmap out := by
        intro i out place
        obtain same | ⟨_, woken⟩ := callers i
        · exact running (kept.calls i out (same.symm.trans place))
        · cases place.symm.trans woken
      have whole : w.unmaps = [] := by
        by_contra unmapped
        exact running (kept.safe unmapped)
      have on : next.unmaps = [] ∧ next.entry ≠ .unmap := by
        obtain ⟨place, rfl⟩ | ⟨place, rfl⟩ | ⟨place, _, shape⟩ | ⟨place, rfl⟩ | ⟨place, rfl⟩ |
          ⟨place, rfl⟩ | ⟨place, rfl⟩ := stepEntry_cases stepped
        case inr.inr.inl =>
          rw [shape]
          exact ⟨whole, by rintro ⟨⟩⟩
        case inr.inr.inr.inl => exact ⟨whole, by cases w.detached <;> rintro ⟨⟩⟩
        case inr.inr.inr.inr.inl =>
          have set : w.joined = true := late place
          exact ⟨whole, by simp [set]⟩
        case inr.inr.inr.inr.inr.inl => exact absurd place kept.self
        all_goals exact ⟨whole, by rintro ⟨⟩⟩
      exact ⟨fun unmapped => absurd on.1 unmapped, on.2, fun i out place =>
        absurd place (calls i out)⟩
  | caller i =>
      have others : ∀ {pc j out}, (pc = .unmap out → w.entry = .ended) →
          (w.goto i pc).caller j = .unmap out → w.entry = .ended := by
        intro pc j out self place
        obtain ⟨_, is⟩ | ⟨_, there⟩ := caller_goto_cases place
        · exact self is
        · exact kept.calls j out there
      obtain ⟨pc, rfl, _, clear, _⟩ | ⟨_, rfl⟩ | ⟨out, place, rfl⟩ | ⟨out, place, rfl⟩ :=
        stepCaller_cases stepped
      · refine ⟨kept.safe, kept.self, fun j out place => others (fun unmaps => ?_) place⟩
        subst unmaps
        cases clear
      · exact ⟨kept.safe, kept.self,
          fun j out place => others (fun unmaps => by cases unmaps) place⟩
      · refine ⟨kept.safe, kept.self, fun j out' place' => others (fun unmaps => ?_) place'⟩
        cases set : w.joined
        · exact late ⟨out, place⟩ set
        · rw [set] at unmaps
          cases unmaps
      · have ended : w.entry = .ended := kept.calls i out place
        exact ⟨fun _ => ended, kept.self, fun _ _ _ => ended⟩

/-- **When the stack stays mapped under the thread.** In runs in which the created thread
never finds itself detached and not joined and `joined` is exchanged for the first time
only when the thread has ended, the stack is not unmapped while the thread has a step
left; and from every other step a run goes on to a state in which it is. -/
theorem safe_iff_late :
    (∀ w, Transition.ReachesBy (step value call) Late (start call) w → w.Safe) ∧
    (∀ w label next, Transition.Reaches (step value call) (start call) w →
      ¬ w.Late label → w.step value call label = some next →
        ∃ v, Transition.Reaches (step value call) next v ∧ ¬ v.Safe) := by
  refine ⟨fun w reached => (reached.invariant (motive := Kept) .start
    fun w label next kept late stepped => kept.step late stepped).safe, ?_⟩
  intro w label next _ early stepped
  cases label with
  | entry woken =>
      simp only [Late, Classical.not_imp, Bool.not_eq_true] at early
      obtain ⟨place, clear⟩ := early
      have decided : next.entry = .unmap := by
        change w.stepEntry value woken = some next at stepped
        unfold stepEntry at stepped
        rw [place] at stepped
        obtain rfl := Option.some.inj stepped
        simp [clear]
      have unmapping : next.step value call (.entry ∅) =
          some { next with unmaps := next.unmaps ++ [none], entry := .leaving } := by
        change next.stepEntry value ∅ = _
        unfold stepEntry
        rw [decided]
      refine ⟨_, Transition.Reaches.next .start _ unmapping, fun safe => ?_⟩
      cases safe (by simp)
  | caller i =>
      simp only [Late, Classical.not_imp] at early
      obtain ⟨⟨out, place⟩, clear, running⟩ := early
      have decided : next.caller i = .unmap out ∧ next.entry = w.entry := by
        change w.stepCaller call i = some next at stepped
        unfold stepCaller at stepped
        rw [place] at stepped
        obtain rfl := Option.some.inj stepped
        simp [clear, goto]
      have unmapping : next.step value call (.caller i) =
          some { next.goto i (.returned 0 out) with unmaps := next.unmaps ++ [some i] } := by
        change next.stepCaller call i = _
        unfold stepCaller
        rw [decided.1]
      refine ⟨_, Transition.Reaches.next .start _ unmapping, fun safe => ?_⟩
      exact running (decided.2.symm.trans (safe (by simp)))

/-- The theorem at a join behind the thread's end, and at a join that finds the thread
completed with its `futex_wake` still to come. -/
theorem safe_iff_late_run :
    (∃ w, Transition.ReachesBy (step 7 fun _ : Fin 1 => .join true) Late
        (start fun _ => .join true) w ∧ w.unmaps = [some 0] ∧ w.Safe) ∧
    (∃ w, Transition.Reaches (step 7 fun _ : Fin 1 => .join true) (start fun _ => .join true) w ∧
      ¬ w.Safe) := by
  have joined : ((Transition.run (Transition.guarded (step 7 fun _ : Fin 1 => .join true)
      fun w label => match label with
        | .entry _ => decide (w.entry ≠ .loadJoined)
        | .caller _ => decide (w.entry = .ended)) (start fun _ => .join true)
      (List.replicate 5 (.entry ∅) ++ List.replicate 5 (.caller 0))).map fun w =>
        w.unmaps) = some [some 0] := by decide +kernel
  obtain ⟨w, ran, unmaps⟩ := Option.map_eq_some_iff.mp joined
  have late : Transition.ReachesBy (step 7 fun _ : Fin 1 => .join true) Late
      (start fun _ => .join true) w := by
    refine .of_guarded ran (fun v label passed => ?_) .start
    cases label with
    | entry woken => exact fun place => absurd place (of_decide_eq_true passed)
    | caller i => exact fun _ _ => of_decide_eq_true passed
  refine ⟨⟨w, late, unmaps, safe_iff_late.1 w late⟩, ?_⟩
  have early : ((Transition.run (step 7 fun _ : Fin 1 => .join true) (start fun _ => .join true)
      (List.replicate 2 (.entry ∅) ++ List.replicate 3 (.caller 0))).bind fun w =>
        (w.step 7 (fun _ => .join true) (.caller 0)).map fun _ =>
          (w.entry, w.caller 0, w.joined)) = some (.wake, .exchange (some 7), false) := by
    decide +kernel
  obtain ⟨u, went, rest⟩ := Option.bind_eq_some_iff.mp early
  obtain ⟨next, stepped, places⟩ := Option.map_eq_some_iff.mp rest
  simp only [Prod.mk.injEq] at places
  obtain ⟨awake, exchanges, clear⟩ := places
  have reached : Transition.Reaches (step 7 fun _ : Fin 1 => .join true)
      (start fun _ => .join true) u := .of_run went .start
  obtain ⟨v, later, unsafely⟩ := safe_iff_late.2 u (.caller 0) next reached
    (fun late => by cases awake.symm.trans (late ⟨_, exchanges⟩ clear)) stepped
  exact ⟨v, (reached.next _ stepped).trans later, unsafely⟩

/-- A joiner that unmaps the stack of a thread that has yet to call `futex_wake`. -/
theorem stack_unmapped_under_thread :
    ¬ ∀ w, Transition.Reaches (step 0 fun _ : Fin 1 => .join false) (start fun _ => .join false) w →
      w.Safe := by
  intro safe
  have early : ((Transition.run (step 0 fun _ : Fin 1 => .join false) (start fun _ => .join false)
      (List.replicate 2 (.entry ∅) ++ List.replicate 5 (.caller 0))).map fun w =>
        (w.entry, w.unmaps)) = some (.wake, [some 0]) := by decide +kernel
  obtain ⟨w, ran, places⟩ := Option.map_eq_some_iff.mp early
  simp only [Prod.mk.injEq] at places
  have ended : w.entry = .ended := safe w (.of_run ran .start) (by rw [places.2]; simp)
  cases places.1.symm.trans ended

end World

end OperationSystems.Mythread
