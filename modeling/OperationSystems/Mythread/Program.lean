import OperationSystems.Mythread.Joiners

/-!
# A program that joins some threads and detaches the others

`main` creates a number of threads, joins the first of them in turn and detaches the rest.
Each of its threads runs beside it on a `mythread_t` of its own; what happens on one of
these is what happens there with a single call.

A detached thread whose stack is unmapped before it ends goes on here as if it were there,
which in C is undefined; the way to the end of `main` needs no step of such a thread.
-/

namespace OperationSystems.Mythread

/-- What the system answers in `mythread_create`. -/
structure CreateAnswers where
  mmap : Bool
  clone : Bool

/-- What a `mythread_create` has done: its result, what it has printed, the stacks that it
has mapped and unmapped, and whether there is a thread. -/
structure Created where
  result : ℤ
  printed : Option String
  mapped : ℕ
  unmapped : ℕ
  started : Bool

/-- `mythread_create`; `given` says that neither pointer is NULL. -/
def mythreadCreate (given : Bool) (answers : CreateAnswers) : Created :=
  if given = false then ⟨-1, none, 0, 0, false⟩
  else if answers.mmap = false then ⟨-1, some "mmap", 0, 0, false⟩
  else if answers.clone = false then ⟨-1, some "clone", 1, 1, false⟩
  else ⟨0, none, 1, 0, true⟩

/-- A creation that fails leaves neither a thread nor a stack, one that does not leaves
both. -/
theorem mythreadCreate_balanced (given : Bool) (answers : CreateAnswers) :
    (mythreadCreate given answers).mapped =
        (mythreadCreate given answers).unmapped + (mythreadCreate given answers).started.toNat ∧
      ((mythreadCreate given answers).result = 0 ↔
        (mythreadCreate given answers).started = true) := by
  unfold mythreadCreate
  split_ifs <;> simp

/-- What `worker` returns. -/
def worker (id : ℕ) : Word := id + 1000

/-- What `main` does with the thread of a number. -/
def callOn (bound i : ℕ) : Call := if i < bound then .join true else .detach

/-- Where `main` is: creating a thread, in the call on one, or at its end. -/
inductive MainPc
  | create (i : ℕ)
  | call (i : ℕ)
  | returned (code : ℤ)
  deriving DecidableEq

/-- Where `main` goes on when its call on a thread has come to a point. -/
def afterCall (i : ℕ) : CallPc → MainPc
  | .returned result _ => if result ≠ 0 then .returned 1 else .call (i + 1)
  | _ => .call i

/-- The `mythread_t`s, as far as they are created, and `main`. -/
structure Program (n : ℕ) where
  handle : Fin n → Option (World Unit)
  main : MainPc

/-- Which step is taken: that of `main`, or that of a created thread. -/
inductive ProgramLabel (n : ℕ)
  | main (answers : CreateAnswers)
  | entry (i : Fin n) (woken : Finset Unit)

/-! ## One call on a handle -/

namespace World

variable {w next : World Unit} {call : Unit → Call} {value : Word}

/-- What the only call on a handle has done when it is a `mythread_join`. -/
def JoinsAlone (w : World Unit) : CallPc → Prop
  | .exchange _ => w.completed = true ∧ w.joined = false ∧ w.unmaps = []
  | .unmap _ => w.completed = true ∧ w.unmaps = []
  | .returned _ _ => w.completed = true ∧ w.unmaps = [some ()]
  | _ => w.joined = false ∧ w.unmaps = []

/-- What it has done when it is a `mythread_detach`. -/
def DetachesAlone (w : World Unit) : CallPc → Prop
  | .storeDetached => True
  | .testCompleted => w.detached = true
  | .exchange out => w.detached = true ∧ out = none
  | .unmap out => w.detached = true ∧ out = none
  | .returned result out => w.detached = true ∧ result = 0 ∧ out = none
  | _ => False

/-- The created thread does not unmap the stack of a thread that nobody detaches. -/
theorem stepEntry_attached {woken : Finset Unit} (attached : w.detached = false)
    (away : w.entry ≠ .loadJoined ∧ w.entry ≠ .unmap)
    (stepped : w.stepEntry value woken = some next) :
    (next.entry ≠ .loadJoined ∧ next.entry ≠ .unmap) ∧ next.unmaps = w.unmaps ∧
      (w.completed = true → next.completed = true) := by
  obtain ⟨place, rfl⟩ | ⟨place, rfl⟩ | ⟨place, _, whole⟩ | ⟨place, rfl⟩ | ⟨place, rfl⟩ |
    ⟨place, rfl⟩ | ⟨place, rfl⟩ := stepEntry_cases stepped
  · exact ⟨by simp, rfl, id⟩
  · exact ⟨by simp, rfl, fun _ => rfl⟩
  · rw [whole]
    exact ⟨by simp, rfl, id⟩
  · simp [attached]
  · exact absurd place away.1
  · exact absurd place away.2
  · exact ⟨by simp, rfl, id⟩

/-- A step of a thread that nobody detaches. -/
theorem JoinsAlone.stepEntry {woken : Finset Unit} (alone : w.JoinsAlone (w.caller ()))
    (attached : w.detached = false) (away : w.entry ≠ .loadJoined ∧ w.entry ≠ .unmap)
    (stepped : w.stepEntry value woken = some next) : next.JoinsAlone (next.caller ()) := by
  obtain ⟨_, unmaps, completed⟩ := stepEntry_attached attached away stepped
  obtain ⟨callers, joined, _, _⟩ := stepEntry_frame stepped
  rcases callers () with same | ⟨asleep, woken⟩
  · rw [same]
    cases place : w.caller () <;> rw [place] at alone <;> unfold JoinsAlone at alone ⊢ <;>
      rw [unmaps] <;> try rw [joined]
    case exchange => exact ⟨completed alone.1, alone.2⟩
    case unmap => exact ⟨completed alone.1, alone.2⟩
    case returned => exact ⟨completed alone.1, alone.2⟩
    all_goals exact alone
  · rw [asleep] at alone
    rw [woken]
    exact ⟨joined.trans alone.1, unmaps.trans alone.2⟩

theorem JoinsAlone.stepCaller (alone : w.JoinsAlone (w.caller ()))
    (joining : w.Joining value call) (stepped : w.stepCaller call () = some next) :
    next.JoinsAlone (next.caller ()) := by
  have here := joining.calls ()
  unfold World.stepCaller at stepped
  cases place : w.caller () <;> rw [place] at stepped here alone
  case storeDetached => exact here.elim
  case testCompleted => exact here.elim
  case returned => cases stepped
  all_goals obtain rfl := Option.some.inj stepped
  case joinLoadDetached =>
    rw [caller_goto_self, joining.attached]
    exact alone
  case loadCompleted =>
    rw [caller_goto_self]
    cases set : w.completed <;> exact alone
  case wait =>
    rw [caller_goto_self]
    cases set : w.completed <;> exact alone
  case asleep =>
    rw [caller_goto_self]
    exact alone
  case readRetval =>
    rw [caller_goto_self]
    exact ⟨here, alone⟩
  case exchange out =>
    obtain ⟨completed, clear, none⟩ := alone
    change JoinsAlone _ ((w.goto () _).caller ())
    rw [caller_goto_self, clear]
    exact ⟨completed, none⟩
  case unmap out =>
    obtain ⟨completed, none⟩ := alone
    change JoinsAlone _ ((w.goto () _).caller ())
    rw [caller_goto_self]
    refine ⟨completed, ?_⟩
    change w.unmaps ++ [some ()] = _
    rw [none]
    rfl

/-- **A `mythread_join` that is the only call** unmaps the stack before it returns, and
nobody else does. -/
theorem joins_alone (wanted : Bool) (reached : Transition.Reaches
    (World.step value fun _ => .join wanted) (World.start fun _ => .join wanted) w) :
    (w.entry ≠ .loadJoined ∧ w.entry ≠ .unmap) ∧ w.JoinsAlone (w.caller ()) := by
  induction reached with
  | start => exact ⟨⟨by simp [World.start], by simp [World.start]⟩, rfl, rfl⟩
  | @step w next label before _ moved ih =>
      have joining := reached_joining (fun _ => ⟨wanted, rfl⟩) before
      cases label with
      | entry woken =>
          exact ⟨(stepEntry_attached joining.attached ih.1 moved).1,
            ih.2.stepEntry joining.attached ih.1 moved⟩
      | caller i =>
          have moved : w.stepCaller (fun _ => .join wanted) i = some next := moved
          refine ⟨?_, ih.2.stepCaller joining moved⟩
          rw [(stepCaller_frame moved).1]
          exact ih.1

/-- **The run lemma** for a handle with one call, a detach. -/
theorem detaches_alone (reached : Transition.Reaches
    (World.step value fun _ => .detach) (World.start fun _ => .detach) w) :
    w.DetachesAlone (w.caller ()) := by
  induction reached with
  | start => trivial
  | @step w next label before _ moved ih =>
      cases label with
      | entry woken =>
          obtain ⟨callers, _, detached, _⟩ := stepEntry_frame moved
          rcases callers () with same | ⟨asleep, _⟩
          · rw [same]
            cases place : w.caller () <;> rw [place] at ih <;> unfold DetachesAlone at ih ⊢ <;>
              try rw [detached]
            all_goals exact ih
          · rw [asleep] at ih
            exact ih.elim
      | caller i =>
          have moved : w.stepCaller (fun _ => .detach) i = some next := moved
          unfold World.stepCaller at moved
          cases place : w.caller () <;> rw [place] at moved ih
          case returned => cases moved
          case storeDetached =>
            obtain rfl := Option.some.inj moved
            change DetachesAlone _ ((w.goto () _).caller ())
            rw [caller_goto_self]
            rfl
          case testCompleted =>
            obtain rfl := Option.some.inj moved
            rw [caller_goto_self]
            cases w.completed
            · exact ⟨ih, rfl, rfl⟩
            · exact ⟨ih, rfl⟩
          case exchange out =>
            obtain rfl := Option.some.inj moved
            change DetachesAlone _ ((w.goto () _).caller ())
            rw [caller_goto_self]
            cases w.joined
            · exact ih
            · exact ⟨ih.1, rfl, ih.2⟩
          case unmap out =>
            obtain rfl := Option.some.inj moved
            change DetachesAlone _ ((w.goto () _).caller ())
            rw [caller_goto_self]
            exact ⟨ih.1, rfl, ih.2⟩
          all_goals exact ih.elim

end World

namespace Program

variable {n : ℕ}

def start (n : ℕ) : Program n where
  handle := fun _ => none
  main := .create 0

def put (p : Program n) (i : Fin n) (w : World Unit) (main : MainPc) : Program n where
  handle := Function.update p.handle i (some w)
  main := main

/-- `main`, which joins the threads below the bound. -/
def stepMain (bound : ℕ) (p : Program n) (answers : CreateAnswers) : Option (Program n) :=
  match p.main with
  | .create i =>
      if inside : i < n then
        if (mythreadCreate true answers).result ≠ 0 then some { p with main := .returned 1 }
        else some (p.put ⟨i, inside⟩ (.start fun _ => callOn bound i) (.create (i + 1)))
      else some { p with main := .call 0 }
  | .call i =>
      if inside : i < n then
        (p.handle ⟨i, inside⟩).bind fun w =>
          (w.stepCaller (fun _ => callOn bound i) ()).map fun w =>
            p.put ⟨i, inside⟩ w (afterCall i (w.caller ()))
      else some { p with main := .returned 0 }
  | .returned _ => none

/-- The thread of a number, while the process is there. -/
def stepThread (p : Program n) (i : Fin n) (woken : Finset Unit) : Option (Program n) :=
  match p.main with
  | .returned _ => none
  | main => (p.handle i).bind fun w => (w.stepEntry (worker i) woken).map fun w => p.put i w main

def step (bound : ℕ) (p : Program n) : ProgramLabel n → Option (Program n)
  | .main answers => p.stepMain bound answers
  | .entry i woken => p.stepThread i woken

/-- Creations succeed. -/
def Succeeds (_ : Program n) : ProgramLabel n → Prop
  | .main answers => answers.mmap = true ∧ answers.clone = true
  | .entry _ _ => True

/-- Creations succeed, and `main` does not return from its `futex_wait` without having been
woken. -/
def Prompted (p : Program n) : ProgramLabel n → Prop
  | .main answers => (answers.mmap = true ∧ answers.clone = true) ∧
      ∀ i w, p.main = .call i.val → p.handle i = some w → w.caller () ≠ .asleep
  | .entry _ _ => True

variable {p next : Program n} {bound : ℕ} {i j : Fin n} {w : World Unit} {main : MainPc}

/-- Where nobody wakes for nothing creations succeed all the same. -/
theorem Prompted.succeeds {label : ProgramLabel n} (prompted : Prompted p label) :
    Succeeds p label := by
  cases label with
  | main answers => exact prompted.1
  | entry i woken => trivial

theorem put_self : (p.put i w main).handle i = some w := Function.update_self ..

theorem put_of_ne (apart : j ≠ i) : (p.put i w main).handle j = p.handle j :=
  Function.update_of_ne apart _ _

/-- What a step of `main` can do when creations succeed. -/
theorem stepMain_cases {answers : CreateAnswers}
    (succeeds : answers.mmap = true ∧ answers.clone = true)
    (stepped : p.stepMain bound answers = some next) :
    (∃ i : Fin n, p.main = .create i ∧
      next = p.put i (.start fun _ => callOn bound i) (.create (i + 1))) ∨
    (∃ i, p.main = .create i ∧ n ≤ i ∧ next = { p with main := .call 0 }) ∨
    (∃ (i : Fin n) (w w' : World Unit), p.main = .call i ∧ p.handle i = some w ∧
      w.stepCaller (fun _ => callOn bound i) () = some w' ∧
        next = p.put i w' (afterCall i (w'.caller ()))) ∨
    (∃ i, p.main = .call i ∧ n ≤ i ∧ next = { p with main := .returned 0 }) := by
  unfold stepMain at stepped
  cases place : p.main with
  | create i =>
      rw [place] at stepped
      dsimp only at stepped
      by_cases inside : i < n
      · have created : ¬ (mythreadCreate true answers).result ≠ 0 := by
          simp [mythreadCreate, succeeds.1, succeeds.2]
        rw [dif_pos inside, if_neg created] at stepped
        exact .inl ⟨⟨i, inside⟩, rfl, (Option.some.inj stepped).symm⟩
      · rw [dif_neg inside] at stepped
        exact .inr (.inl ⟨i, rfl, Nat.le_of_not_lt inside, (Option.some.inj stepped).symm⟩)
  | call i =>
      rw [place] at stepped
      dsimp only at stepped
      by_cases inside : i < n
      · rw [dif_pos inside] at stepped
        obtain ⟨w, there, stepped⟩ := Option.bind_eq_some_iff.mp stepped
        obtain ⟨w', moved, rfl⟩ := Option.map_eq_some_iff.mp stepped
        exact .inr (.inr (.inl ⟨⟨i, inside⟩, w, w', rfl, there, moved, rfl⟩))
      · rw [dif_neg inside] at stepped
        exact .inr (.inr (.inr ⟨i, rfl, Nat.le_of_not_lt inside, (Option.some.inj stepped).symm⟩))
  | returned code =>
      rw [place] at stepped
      cases stepped

/-- A step of a thread is one on its handle, while `main` has not returned. -/
theorem stepThread_cases {woken : Finset Unit} (stepped : p.stepThread i woken = some next) :
    (∀ code, p.main ≠ .returned code) ∧ ∃ w w', p.handle i = some w ∧
      w.stepEntry (worker i) woken = some w' ∧ next = p.put i w' p.main := by
  unfold stepThread at stepped
  cases place : p.main with
  | returned code =>
      rw [place] at stepped
      cases stepped
  | _ =>
      rw [place] at stepped
      obtain ⟨w, there, stepped⟩ := Option.bind_eq_some_iff.mp stepped
      obtain ⟨w', moved, rfl⟩ := Option.map_eq_some_iff.mp stepped
      exact ⟨nofun, w, w', there, moved, rfl⟩

/-- With one call there is at most one sleeper. -/
theorem fewAsleep (w : World Unit) (label : Label Unit) : w.FewAsleep label := by
  cases label with
  | entry woken => exact fun _ => Finset.card_le_one_of_subsingleton _
  | caller i => trivial

/-- **A handle in the program** runs as it would alone. -/
theorem reached_handle (reached : Transition.ReachesBy (step bound) Succeeds (start n) p)
    (there : p.handle i = some w) :
    Transition.ReachesBy (World.step (worker i) fun _ => callOn bound i) World.FewAsleep
      (World.start fun _ => callOn bound i) w := by
  induction reached generalizing w with
  | start => cases there
  | @step p next label before succeeds moved ih =>
      cases label with
      | main answers =>
          obtain ⟨j, _, rfl⟩ | ⟨_, _, _, rfl⟩ | ⟨j, v, v', _, old, stepped, rfl⟩ | ⟨_, _, _, rfl⟩ :=
            stepMain_cases succeeds moved
          · by_cases same : i = j
            · subst same
              obtain rfl := Option.some.inj (put_self.symm.trans there)
              exact .start
            · exact ih ((put_of_ne same).symm.trans there)
          · exact ih there
          · by_cases same : i = j
            · subst same
              obtain rfl := Option.some.inj (put_self.symm.trans there)
              exact .step (.caller ()) (ih old) (fewAsleep _ _) stepped
            · exact ih ((put_of_ne same).symm.trans there)
          · exact ih there
      | entry j woken =>
          obtain ⟨_, v, v', old, stepped, rfl⟩ := stepThread_cases moved
          by_cases same : i = j
          · subst same
            obtain rfl := Option.some.inj (put_self.symm.trans there)
            exact .step (.entry woken) (ih old) (fewAsleep _ _) stepped
          · exact ih ((put_of_ne same).symm.trans there)

/-! ## In turn -/

omit i in
/-- A call on a handle only ever returns 0, with the answer of the thread. -/
theorem returned_zero {value : Word} {i : ℕ} (reached : Transition.Reaches
    (World.step value fun _ => callOn bound i) (World.start fun _ => callOn bound i) w)
    {result : ℤ} {out : Option Word} (returned : w.caller () = .returned result out) :
    result = 0 ∧ out = answer value (callOn bound i) := by
  by_cases joined : i < bound
  · have join : callOn bound i = .join true := if_pos joined
    rw [join] at reached ⊢
    have here := (World.reached_joining (fun _ => ⟨true, rfl⟩) reached).calls ()
    rw [returned] at here
    exact here
  · have detach : callOn bound i = .detach := if_neg joined
    rw [detach] at reached ⊢
    have here := World.detaches_alone reached
    rw [returned] at here
    exact here.2

/-- Where the call on the thread of number `j` is while `main` is at a point; `none` means
that there is no such thread yet. -/
def Fits (bound j : ℕ) : MainPc → Option CallPc → Prop
  | .create i, place =>
      (j < i → place = some (callOn bound j).begin) ∧ (i ≤ j → place = none)
  | .call i, place => ∃ pc, place = some pc ∧
      (j < i → pc = .returned 0 (answer (worker j) (callOn bound j))) ∧
      (j = i → ∀ result out, pc ≠ .returned result out) ∧
      (i < j → pc = (callOn bound j).begin)
  | .returned _, place => place = some (.returned 0 (answer (worker j) (callOn bound j)))

/-- `main` takes the threads in turn. -/
structure Ordered (bound : ℕ) (p : Program n) : Prop where
  fits : ∀ j : Fin n, Fits bound j p.main ((p.handle j).map fun w => w.caller ())
  inside : match p.main with
    | .create i => i ≤ n
    | .call i => i ≤ n
    | .returned code => code = 0

theorem begin_ne (call : Call) : call.begin ≠ .asleep ∧ ∀ result out,
    call.begin ≠ .returned result out := by
  cases call with
  | join wanted => exact ⟨nofun, nofun⟩
  | detach => exact ⟨nofun, nofun⟩

/-- `main` stays in a call that has not returned. -/
theorem afterCall_of_going {i : ℕ} {pc : CallPc} (going : ∀ result out, pc ≠ .returned result out) :
    afterCall i pc = .call i := by
  cases pc with
  | returned result out => exact absurd rfl (going result out)
  | _ => rfl

/-- A sleeper that is woken is still in its call. -/
theorem Fits.woken {j : ℕ} {main : MainPc} (fits : Fits bound j main (some .asleep)) :
    Fits bound j main (some .loadCompleted) := by
  cases main with
  | create i =>
      rcases Nat.lt_or_ge j i with below | above
      · exact absurd (Option.some.inj (fits.1 below)).symm (begin_ne _).1
      · cases fits.2 above
  | call i =>
      obtain ⟨pc, asleep, before, _, after⟩ := fits
      obtain rfl := Option.some.inj asleep
      refine ⟨_, rfl, fun below => ?_, nofun, fun above => ?_⟩
      · cases before below
      · exact absurd (after above).symm (begin_ne _).1
  | returned code => cases fits

/-- A step of a thread leaves `main` where it is. -/
theorem Ordered.stepThread (ordered : p.Ordered bound) {woken : Finset Unit}
    (stepped : p.stepThread i woken = some next) : next.Ordered bound := by
  obtain ⟨_, w, w', there, moved, rfl⟩ := stepThread_cases stepped
  refine ⟨fun j => ?_, ordered.inside⟩
  by_cases same : j = i
  · subst same
    have before := ordered.fits j
    rw [there] at before
    rw [put_self]
    rcases (World.stepEntry_frame moved).1 () with still | ⟨asleep, woken⟩
    · rw [Option.map_some, still]
      exact before
    · rw [Option.map_some, asleep] at before
      rw [Option.map_some, woken]
      exact before.woken
  · rw [put_of_ne same]
    exact ordered.fits j

/-- A step of `main` takes the threads in turn. -/
theorem Ordered.stepMain (ordered : p.Ordered bound)
    (reached : Transition.ReachesBy (step bound) Succeeds (start n) p) {answers : CreateAnswers}
    (succeeds : answers.mmap = true ∧ answers.clone = true)
    (stepped : p.stepMain bound answers = some next) : next.Ordered bound := by
  have inside := ordered.inside
  obtain ⟨i, place, rfl⟩ | ⟨i, place, last, rfl⟩ | ⟨i, w, w', place, there, moved, rfl⟩ |
    ⟨i, place, last, rfl⟩ := stepMain_cases succeeds stepped
  · refine ⟨fun j => ?_, i.isLt⟩
    have before := ordered.fits j
    rw [place] at before
    by_cases same : j = i
    · subst same
      rw [put_self]
      exact ⟨fun _ => rfl, fun above => absurd above (by omega)⟩
    · have apart : j.val ≠ i := fun equal => same (Fin.ext equal)
      rw [put_of_ne same]
      exact ⟨fun below => before.1 (by omega), fun above => before.2 (by omega)⟩
  · rw [place] at inside
    refine ⟨fun j => ?_, Nat.zero_le n⟩
    have before := ordered.fits j
    rw [place] at before
    have created := before.1 (j.isLt.trans_le last)
    exact ⟨_, created, nofun, fun _ => (begin_ne _).2, fun _ => rfl⟩
  · have there' : (p.put i w' (afterCall i (w'.caller ()))).handle i = some w' := put_self
    have run := reached_handle (reached.step (.main answers) succeeds stepped) there'
    by_cases ends : ∃ result out, w'.caller () = .returned result out
    · obtain ⟨result, out, ends⟩ := ends
      obtain ⟨rfl, rfl⟩ := returned_zero run.reaches ends
      rw [ends]
      refine ⟨fun j => ?_, i.isLt⟩
      have before := ordered.fits j
      rw [place] at before
      obtain ⟨pc, here, earlier, _, later⟩ := before
      by_cases same : j = i
      · subst same
        rw [put_self, Option.map_some, ends]
        exact ⟨_, rfl, fun _ => rfl, fun equal => absurd equal (by omega), fun above =>
          absurd above (by omega)⟩
      · have apart : j.val ≠ i := fun equal => same (Fin.ext equal)
        rw [put_of_ne same]
        refine ⟨pc, here, fun below => earlier (by omega), fun equal => ?_, fun above =>
          later (by omega)⟩
        rw [later (by omega)]
        exact (begin_ne _).2
    · push Not at ends
      rw [afterCall_of_going ends]
      refine ⟨fun j => ?_, i.isLt.le⟩
      have before := ordered.fits j
      rw [place] at before
      by_cases same : j = i
      · subst same
        rw [put_self]
        exact ⟨_, rfl, fun below => absurd below (by omega), fun _ => ends, fun above =>
          absurd above (by omega)⟩
      · rw [put_of_ne same]
        exact before
  · refine ⟨fun j => ?_, rfl⟩
    have before := ordered.fits j
    rw [place] at before
    obtain ⟨pc, here, earlier, _, _⟩ := before
    rw [earlier (j.isLt.trans_le last)] at here
    exact here

/-- **The run lemma.** `main` takes the threads in turn. -/
theorem reached_ordered (reached : Transition.ReachesBy (step bound) Succeeds (start n) p) :
    p.Ordered bound := by
  induction reached with
  | start => exact ⟨fun j => ⟨nofun, fun _ => rfl⟩, Nat.zero_le n⟩
  | step label before succeeds moved ih =>
      cases label with
      | main answers => exact ih.stepMain before succeeds moved
      | entry i woken => exact ih.stepThread moved

/-! ## To the end -/

/-- How many steps a created thread has ahead of it up to its `futex_wake`. -/
def entryLeft : EntryPc → ℕ
  | .running => 3
  | .storeCompleted => 2
  | .wake => 1
  | _ => 0

/-- How many steps a `mythread_detach` has ahead of it at most. -/
def detachLeft : CallPc → ℕ
  | .storeDetached => 4
  | .testCompleted => 3
  | .exchange _ => 2
  | .unmap _ => 1
  | _ => 0

/-- What is left to do on a handle before the call on it returns. -/
def left (bound i : ℕ) (w : World Unit) : ℕ :=
  if i < bound then entryLeft w.entry * 6 + World.ahead (w.caller ())
  else detachLeft (w.caller ())

theorem ahead_le (pc : CallPc) : World.ahead pc ≤ 5 := by
  cases pc <;> simp [World.ahead]

theorem left_le (bound i : ℕ) (w : World Unit) : left bound i w ≤ 23 := by
  unfold left
  split_ifs
  · have few := ahead_le (w.caller ())
    have early : entryLeft w.entry ≤ 3 := by
      cases w.entry <;> simp [entryLeft]
    omega
  · cases w.caller () <;> simp [detachLeft]

/-- Up to its `futex_wake` nothing holds up a created thread. -/
theorem entry_advance {value : Word} (early : ¬ w.Woken) : ∃ woken w',
    w.stepEntry value woken = some w' ∧ entryLeft w'.entry < entryLeft w.entry := by
  unfold World.stepEntry
  cases place : w.entry with
  | running => exact ⟨∅, _, rfl, by simp [entryLeft]⟩
  | storeCompleted => exact ⟨∅, _, rfl, by simp [entryLeft]⟩
  | wake =>
      have one : w.sleepers.card ≤ 1 := Finset.card_le_one_of_subsingleton _
      have wakes : w.sleepers ⊆ w.sleepers ∧ w.sleepers.card = min 1 w.sleepers.card :=
        ⟨Finset.Subset.refl _, (min_eq_right one).symm⟩
      refine ⟨w.sleepers, { w with
        entry := .loadDetached
        caller := fun i => if i ∈ w.sleepers then .loadCompleted else w.caller i }, ?_, ?_⟩
      · simp only [World.futexWake, if_pos wakes, Option.map_some]
      · simp [entryLeft]
  | _ => exact absurd ⟨by simp [place], by simp [place], by simp [place]⟩ early

/-- **A call on a handle gets on**: by a step of its own, or, where it waits, by a step of the
created thread. -/
theorem handle_advance {i : ℕ} {value : Word} (reached : Transition.ReachesBy
      (World.step value fun _ => callOn bound i) World.FewAsleep
      (World.start fun _ => callOn bound i) w)
    (going : ∀ result out, w.caller () ≠ .returned result out) :
    (∃ woken w', w.stepEntry value woken = some w' ∧ left bound i w' < left bound i w) ∨
      w.caller () ≠ .asleep ∧ ∃ w', w.stepCaller (fun _ => callOn bound i) () = some w' ∧
        left bound i w' < left bound i w := by
  by_cases joined : i < bound
  · have join : callOn bound i = .join true := if_pos joined
    rw [join] at reached ⊢
    unfold left
    simp only [if_pos joined]
    have joining := World.reached_joining (fun _ => ⟨true, rfl⟩) reached.reaches
    by_cases past : w.Woken
    · have awake := World.none_asleep (fun _ => ⟨true, rfl⟩) reached past ()
      obtain ⟨next, stepped, _, less⟩ := joining.advance past awake (going _ _)
      refine .inr ⟨awake, next, stepped, ?_⟩
      rw [(World.stepCaller_frame stepped).1]
      omega
    · obtain ⟨woken, next, stepped, less⟩ := entry_advance past
      have few := ahead_le (next.caller ())
      exact .inl ⟨woken, next, stepped, by omega⟩
  · have detach : callOn bound i = .detach := if_neg joined
    rw [detach] at reached ⊢
    have here := World.detaches_alone reached.reaches
    unfold left
    simp only [if_neg joined]
    unfold World.stepCaller
    cases place : w.caller () <;> rw [place] at here
    case returned result out => exact absurd place (going result out)
    case storeDetached =>
      exact .inr ⟨by simp, _, rfl, by simp [World.goto, detachLeft]⟩
    case testCompleted =>
      refine .inr ⟨by simp, _, rfl, ?_⟩
      cases w.completed <;> simp [World.goto, detachLeft]
    case exchange out =>
      refine .inr ⟨by simp, _, rfl, ?_⟩
      cases w.joined <;> simp [World.goto, detachLeft]
    case unmap out =>
      exact .inr ⟨by simp, _, rfl, by simp [World.goto, detachLeft]⟩
    all_goals exact here.elim

/-- What is left to do before the call on the thread of a number returns. -/
def handleLeft (bound : ℕ) (p : Program n) (i : ℕ) : ℕ :=
  if inside : i < n then ((p.handle ⟨i, inside⟩).map (left bound i)).getD 0 else 0

/-- What is left to do before `main` returns. -/
def work (bound : ℕ) (p : Program n) : ℕ :=
  match p.main with
  | .create i => n - i + (n + 1) * 24 + 1
  | .call i => (n - i) * 24 + p.handleLeft bound i + 1
  | .returned _ => 0

theorem handleLeft_le (bound : ℕ) (p : Program n) (i : ℕ) : p.handleLeft bound i ≤ 23 := by
  unfold handleLeft
  split_ifs with inside
  · cases p.handle ⟨i, inside⟩ with
    | none => exact Nat.zero_le 23
    | some w => exact left_le bound i w
  · exact Nat.zero_le 23

theorem handleLeft_eq (there : p.handle i = some w) :
    p.handleLeft bound i = left bound i w := by
  simp [handleLeft, there]

/-- **`main` gets on** from every state. -/
theorem advance (reached : Transition.ReachesBy (step bound) Succeeds (start n) p)
    (going : p.main ≠ .returned 0) : ∃ label next, Prompted p label ∧
      step bound p label = some next ∧ next.work bound < p.work bound := by
  have ordered := reached_ordered reached
  have answers : (CreateAnswers.mk true true).mmap = true ∧
      (CreateAnswers.mk true true).clone = true := ⟨rfl, rfl⟩
  cases place : p.main with
  | create i =>
      have prompted : Prompted p (.main ⟨true, true⟩) := ⟨answers, by simp [place]⟩
      by_cases inside : i < n
      · refine ⟨.main ⟨true, true⟩, p.put ⟨i, inside⟩ (.start fun _ => callOn bound i)
          (.create (i + 1)), prompted, ?_, ?_⟩
        · simp [step, stepMain, place, inside, mythreadCreate]
        · simp only [work, place, put]
          omega
      · refine ⟨.main ⟨true, true⟩, { p with main := .call 0 }, prompted, ?_, ?_⟩
        · simp [step, stepMain, place, inside]
        · have few := handleLeft_le bound { p with main := .call 0 } 0
          simp only [work, place]
          omega
  | call i =>
      by_cases inside : i < n
      · obtain ⟨k, rfl⟩ : ∃ k : Fin n, k.val = i := ⟨⟨i, inside⟩, rfl⟩
        have fits := ordered.fits k
        rw [place] at fits
        obtain ⟨pc, here, _, unreturned, _⟩ := fits
        obtain ⟨w, there, rfl⟩ := Option.map_eq_some_iff.mp here
        have run := reached_handle reached there
        have before : p.work bound = (n - k) * 24 + left bound k w + 1 := by
          simp only [work, place]
          rw [handleLeft_eq there]
        have stays : ∀ w',
            (p.put k w' (.call k)).work bound = (n - k) * 24 + left bound k w' + 1 := by
          intro w'
          have held : (p.put k w' (.call k)).handle k = some w' := put_self
          change (n - k) * 24 + (p.put k w' (.call k)).handleLeft bound k + 1 = _
          rw [handleLeft_eq held]
        rcases handle_advance run (unreturned rfl) with
          ⟨woken, w', stepped, less⟩ | ⟨awake, w', stepped, less⟩
        · refine ⟨.entry k woken, p.put k w' (.call k), trivial, ?_, ?_⟩
          · simp [step, stepThread, place, there, stepped]
          · rw [before, stays]
            omega
        · refine ⟨.main ⟨true, true⟩, p.put k w' (afterCall k (w'.caller ())),
            ⟨answers, fun j v here holds => ?_⟩, ?_, ?_⟩
          · obtain rfl : k = j := Fin.ext (MainPc.call.inj (place.symm.trans here))
            obtain rfl := Option.some.inj (there.symm.trans holds)
            exact awake
          · simp [step, stepMain, place, there, stepped]
          · by_cases ends : ∃ result out, w'.caller () = .returned result out
            · obtain ⟨result, out, ends⟩ := ends
              have moved : World.step (worker k) (fun _ => callOn bound k) w (.caller ()) =
                some w' := stepped
              obtain ⟨rfl, _⟩ := returned_zero (run.step _ (fewAsleep _ _) moved).reaches ends
              rw [before, ends]
              have few := handleLeft_le bound (p.put k w' (.call (k + 1))) (k + 1)
              have next : (p.put k w' (afterCall k (.returned 0 out))).work bound =
                  (n - (k + 1)) * 24 +
                    (p.put k w' (.call (k + 1))).handleLeft bound (k + 1) + 1 := rfl
              rw [next]
              omega
            · push Not at ends
              rw [before, afterCall_of_going ends, stays]
              omega
      · refine ⟨.main ⟨true, true⟩, { p with main := .returned 0 },
          ⟨answers, fun j w here => ?_⟩, ?_, ?_⟩
        · obtain rfl := MainPc.call.inj (place.symm.trans here)
          exact absurd j.isLt inside
        · simp [step, stepMain, place, inside]
        · simp only [work, place]
          omega
  | returned code =>
      have zero := ordered.inside
      rw [place] at zero
      exact absurd (place.trans (congrArg _ zero)) going

/-- **`main` joins and detaches all its threads.** From every state that a run reaches in
which all creations succeed, `main` can return 0, without any `futex_wait` returning for
nothing, and it never returns anything else. When it has returned, each `mythread_join` has
given it what `worker` returned on that number, and the stack of that thread has been
unmapped once, by the join; the other threads are detached. -/
theorem main_returns (reached : Transition.ReachesBy (step bound) Succeeds (start n) p) :
    (∃ q, Transition.ReachesBy (step bound) Prompted p q ∧ q.main = .returned 0) ∧
      (∀ code, p.main = .returned code → code = 0 ∧ ∀ i : Fin n, ∃ w, p.handle i = some w ∧
        (i < bound → w.caller () = .returned 0 (some (worker i)) ∧ w.completed = true ∧
          w.unmaps = [some ()]) ∧
        (bound ≤ i → w.caller () = .returned 0 none ∧ w.detached = true)) := by
  refine ⟨?_, fun code ended => ?_⟩
  · have goes : ∀ p : Program n, Transition.ReachesBy (step bound) Succeeds (start n) p →
        ¬ p.main = .returned 0 → ∃ label next, Prompted p label ∧
          step bound p label = some next ∧
            Transition.ReachesBy (step bound) Succeeds (start n) next ∧
              next.work bound < p.work bound := by
      intro p reached going
      obtain ⟨label, next, prompted, stepped, less⟩ := advance reached going
      exact ⟨label, next, prompted, stepped, .step label reached prompted.succeeds stepped, less⟩
    obtain ⟨q, ran, _, ended⟩ := Transition.exists_reachesBy_of_measure
      (fun p => Transition.ReachesBy (step bound) Succeeds (start n) p)
      (fun p => p.main = .returned 0) (work bound) goes reached
    exact ⟨q, ran, ended⟩
  · have ordered := reached_ordered reached
    have zero := ordered.inside
    rw [ended] at zero
    refine ⟨zero, fun i => ?_⟩
    have fits := ordered.fits i
    rw [ended] at fits
    obtain ⟨w, there, returned⟩ := Option.map_eq_some_iff.mp fits
    have run := (reached_handle reached there).reaches
    refine ⟨w, there, fun joined => ?_, fun apart => ?_⟩
    · have join : callOn bound i = .join true := if_pos joined
      rw [join] at run returned
      have alone := (World.joins_alone true run).2
      rw [returned] at alone
      exact ⟨returned, alone⟩
    · have detach : callOn bound i = .detach := if_neg (Nat.not_lt.mpr apart)
      rw [detach] at run returned
      have alone := World.detaches_alone run
      rw [returned] at alone
      exact ⟨returned, alone.1⟩

/-- The program as it is, with 100 threads of which 50 are joined: its end is reached, and
there the thread of number 3 has been joined and that of number 99 detached. -/
theorem main_returns_run : ∃ q : Program 100,
    Transition.ReachesBy (step 50) Prompted (start 100) q ∧ q.main = .returned 0 ∧
      (∃ w, q.handle 3 = some w ∧ w.caller () = .returned 0 (some (worker 3)) ∧
        w.completed = true ∧ w.unmaps = [some ()]) ∧
      ∃ w, q.handle 99 = some w ∧ w.caller () = .returned 0 none ∧ w.detached = true := by
  obtain ⟨q, ran, ended⟩ := (main_returns (.start : Transition.ReachesBy (step 50) Succeeds
    (start 100) (start 100))).1
  have reached : Transition.ReachesBy (step 50) Succeeds (start 100) q :=
    ran.mono fun _ _ => Prompted.succeeds
  obtain ⟨_, handles⟩ := (main_returns reached).2 0 ended
  obtain ⟨joined, there, ofJoin, _⟩ := handles 3
  obtain ⟨detached, there', _, ofDetach⟩ := handles 99
  exact ⟨q, ran, ended, ⟨joined, there, ofJoin (by decide)⟩,
    detached, there', ofDetach (by decide)⟩

end Program

end OperationSystems.Mythread
