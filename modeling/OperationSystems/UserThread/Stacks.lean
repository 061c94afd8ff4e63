import OperationSystems.UserThread.Completion

/-!
# Whose stack is freed

`uthread_run_all` frees the stack of the uthread that it has started itself, when control
comes back. A uthread that ends while others are READY does not give control back but
starts one of them, and the stack of that one is freed by nobody.
-/

namespace OperationSystems.UserThread

namespace Roster

variable {d e : Roster} {t self : Ptr} {u v : Uthread} {code : Code} {answer : Answer}

/-- What a step can do. -/
theorem step_cases (done : d.step answer = some e) :
    (∃ t startRoutine arg after, d.running.point = .code (.create t startRoutine arg after) ∧
      e = d.create t startRoutine arg after answer) ∨
    (d.running.owner = none ∧ ∃ point, (∀ t code, d.running.point ≠ .resumed t code) ∧
      (∀ t code, point ≠ .resumed t code) ∧ e = d.goto point) ∨
    (d.running.owner = none ∧ ∃ t rest after, (∀ t code, d.running.point ≠ .resumed t code) ∧
      d.jobs = t :: rest ∧
        ({ d with waiting := some (t, after) } : Roster).launch t rest = some e) ∨
    (d.running.owner = none ∧ ∃ t after u, d.running.point = .resumed t after ∧
      d.uthreads t = some u ∧ e = (d.free t u).goto (.looping after)) ∨
    (∃ self code event, d.running.owner = some self ∧
      (∀ result, d.running.point ≠ .code (.done result)) ∧
        e = { d.goto (.code code) with events := d.events ++ [event] }) ∨
    (∃ self u result t after, d.running = ⟨some self, .code (.done result)⟩ ∧
      d.uthreads self = some u ∧ d.jobs = [] ∧ d.waiting = some (t, after) ∧
        e = { d.finish self u result with running := ⟨none, .resumed t after⟩ }) ∨
    (∃ self u result t rest, d.running = ⟨some self, .code (.done result)⟩ ∧
      d.uthreads self = some u ∧ d.jobs = t :: rest ∧
        (d.finish self u result).launch t rest = some e) := by
  have whole : ∀ {owner point}, d.running.owner = owner → d.running.point = point →
      d.running = ⟨owner, point⟩ := by
    rintro owner point rfl rfl
    rfl
  unfold Roster.step at done
  split at done
  case h_1 _ t startRoutine arg after place =>
    obtain rfl := Option.some.inj done
    exact .inl ⟨t, startRoutine, arg, after, place, rfl⟩
  case h_2 after place owner =>
    obtain rfl := Option.some.inj done
    refine .inr (.inl ⟨owner, .looping after, fun t code is => ?_, fun t code is => ?_, rfl⟩)
    · cases place.symm.trans is
    · cases is
  case h_3 after place owner =>
    have off : ∀ t code, d.running.point ≠ .resumed t code := fun t code is => by
      cases place.symm.trans is
    split at done
    · obtain rfl := Option.some.inj done
      exact .inr (.inl ⟨owner, .code after, off, fun t code is => (by cases is), rfl⟩)
    · rename_i t rest jobs
      exact .inr (.inr (.inl ⟨owner, t, rest, after, off, jobs, done⟩))
  case h_4 t after place owner =>
    obtain ⟨u, there, rfl⟩ := Option.map_eq_some_iff.mp done
    exact .inr (.inr (.inr (.inl ⟨owner, t, after, u, place, there, rfl⟩)))
  case h_5 self place owner =>
    obtain ⟨u, _, rest⟩ := Option.bind_eq_some_iff.mp done
    obtain ⟨startRoutine, _, rest⟩ := Option.bind_eq_some_iff.mp rest
    obtain rfl := Option.some.inj rest
    refine .inr (.inr (.inr (.inr (.inl ⟨self, _, _, owner, fun result is => ?_, rfl⟩))))
    cases place.symm.trans is
  case h_6 after self place owner =>
    obtain rfl := Option.some.inj done
    refine .inr (.inr (.inr (.inr (.inl ⟨self, _, _, owner, fun result is => ?_, rfl⟩))))
    cases place.symm.trans is
  case h_7 result self place owner =>
    obtain ⟨u, there, rest⟩ := Option.bind_eq_some_iff.mp done
    split at rest
    · rename_i jobs
      obtain ⟨⟨t, after⟩, waiting, rfl⟩ := Option.map_eq_some_iff.mp rest
      exact .inr (.inr (.inr (.inr (.inr (.inl ⟨self, u, result, t, after, whole owner place, there,
        jobs, waiting, rfl⟩)))))
    · rename_i t others jobs
      exact .inr (.inr (.inr (.inr (.inr (.inr ⟨self, u, result, t, others, whole owner place,
        there, jobs, rest⟩)))))
  case h_8 => cases done

/-! ## The stacks -/

/-- The stack of a uthread; `none` where there is no uthread. -/
def block (d : Roster) (t : Ptr) : Option (Option ℕ) :=
  (d.uthreads t).bind fun u => if u.startRoutine.isSome then some u.stack else none

/-- There is a block exactly for what is enrolled. -/
theorem block_eq_none : d.block t = none ↔ ¬ d.Enrolled t := by
  unfold block Enrolled Uthread.Created
  cases d.uthreads t <;> simp

theorem Enrolled.of_block (block : e.block = d.block) (known : e.Enrolled t) : d.Enrolled t := by
  by_contra absent
  rw [← block_eq_none, ← block, block_eq_none] at absent
  exact absent known

/-- A change of one block enrolls nobody else. -/
theorem Enrolled.of_update {x : Ptr} {stack : Option (Option ℕ)}
    (block : e.block = Function.update d.block t stack) (apart : x ≠ t) (known : e.Enrolled x) :
    d.Enrolled x := by
  by_contra absent
  rw [← block_eq_none, ← Function.update_of_ne apart stack d.block, ← block,
    block_eq_none] at absent
  exact absent known

theorem block_eq_some {stack : Option ℕ} :
    d.block t = some stack ↔ ∃ u, d.uthreads t = some u ∧ u.Created ∧ u.stack = stack := by
  unfold block Uthread.Created
  cases d.uthreads t <;> simp

/-- Storing an object changes its own block. -/
theorem block_install (d : Roster) (t : Ptr) (v : Uthread) : (d.install t v).block =
    Function.update d.block t (if v.startRoutine.isSome then some v.stack else none) := by
  funext x
  unfold block
  by_cases same : x = t
  · subst same
    rw [uthreads_install_self, Function.update_self, Option.bind_some]
  · rw [uthreads_install_of_ne same, Function.update_of_ne same]

/-- A write that changes neither the stack nor whether there is a uthread. -/
theorem block_keep (here : d.uthreads t = some u) (stack : v.stack = u.stack)
    (routine : v.startRoutine = u.startRoutine) : (d.install t v).block = d.block := by
  rw [block_install, Function.update_eq_self_iff]
  unfold block
  rw [here, stack, routine, Option.bind_some]

/-- Starting a uthread touches no stack. -/
theorem block_launch {rest : List Ptr} (done : d.launch t rest = some e) :
    e.block = d.block ∧ e.mallocs = d.mallocs ∧ e.frees = d.frees ∧ e.jobs = rest ∧
      e.running = ⟨some t, .entry⟩ ∧ e.waiting = d.waiting := by
  obtain ⟨u, here, rfl⟩ := Option.map_eq_some_iff.mp done
  exact ⟨block_keep (v := { u with state := .running }) here rfl rfl, rfl, rfl, rfl, rfl, rfl⟩

/-- The end of a routine touches no stack. -/
theorem block_finish (result : Word) (here : d.uthreads self = some u) :
    (d.finish self u result).block = d.block :=
  block_keep (v := { u with retval := result, state := .finished }) here rfl rfl

/-- The stack of a uthread that `uthread_run_all` finds ended is freed. -/
theorem free_cases (here : d.uthreads t = some u) (created : u.Created) :
    (d.block t = some none ∧ d.free t u = d) ∨
    ∃ stack, d.block t = some (some stack) ∧
      (d.free t u).block = Function.update d.block t (some none) ∧
        (d.free t u).frees = d.frees ++ [stack] ∧ (d.free t u).mallocs = d.mallocs ∧
          (d.free t u).jobs = d.jobs := by
  have held : d.block t = some u.stack := block_eq_some.mpr ⟨u, here, created, rfl⟩
  unfold free
  split
  · rename_i stack own
    refine .inr ⟨stack, by rw [held, own], ?_, rfl, rfl, rfl⟩
    exact (block_install d t { u with stack := none }).trans
      (congrArg (Function.update d.block t) (if_pos created))
  · rename_i own
    exact .inl ⟨by rw [held, own], rfl⟩

/-- Every stack is held by the uthread it was allocated for, or has been freed once. -/
structure Accounted (d : Roster) : Prop where
  bound : ∀ stack ∈ d.frees, stack < d.mallocs.length
  allocated : ∀ t, d.Enrolled t → t ∈ d.mallocs
  held : ∀ t stack, d.block t = some (some stack) →
    d.mallocs[stack]? = some t ∧ d.frees.count stack = 0
  paid : ∀ t stack, d.mallocs[stack]? = some t →
    d.frees.count stack = 1 ∨ d.block t = some (some stack)
  jobs : ∀ t ∈ d.jobs, ∃ stack, d.block t = some (some stack)

theorem Accounted.start : (start code).Accounted where
  bound := fun _ member => by cases member
  allocated := fun _ ⟨_, held, _⟩ => by cases held
  held := fun _ _ held => by cases held
  paid := fun _ _ paid => by cases paid
  jobs := fun _ member => by cases member

/-- A step that allocates and frees nothing and adds no job. -/
theorem Accounted.same (accounted : d.Accounted) (block : e.block = d.block)
    (mallocs : e.mallocs = d.mallocs) (frees : e.frees = d.frees)
    (jobs : ∀ t ∈ e.jobs, t ∈ d.jobs) : e.Accounted where
  bound := by
    rw [mallocs, frees]
    exact accounted.bound
  allocated := by
    intro t known
    rw [mallocs]
    exact accounted.allocated t (known.of_block block)
  held := by
    rw [block, mallocs, frees]
    exact accounted.held
  paid := by
    rw [block, mallocs, frees]
    exact accounted.paid
  jobs := by
    rw [block]
    exact fun t member => accounted.jobs t (jobs t member)

/-- The stack allocated last is in no list yet. -/
theorem Accounted.unused (accounted : d.Accounted) : d.frees.count d.mallocs.length = 0 :=
  List.count_eq_zero.mpr fun member => absurd (accounted.bound _ member) (lt_irrefl _)

/-- An entry of a list with one more element at its end. -/
theorem getElem?_snoc {α : Type} {xs : List α} {x y : α} {i : ℕ} :
    (xs ++ [x])[i]? = some y ↔ xs[i]? = some y ∨ i = xs.length ∧ x = y := by
  rw [List.getElem?_append]
  split
  · rename_i inside
    constructor
    · exact .inl
    · rintro (before | ⟨rfl, _⟩)
      · exact before
      · exact absurd inside (lt_irrefl _)
  · rename_i outside
    rw [List.getElem?_singleton, List.getElem?_eq_none (Nat.le_of_not_lt outside)]
    constructor
    · intro last
      split at last
      · exact .inr ⟨by omega, Option.some.inj last⟩
      · cases last
    · rintro (before | ⟨rfl, rfl⟩)
      · cases before
      · simp

/-- A `uthread_create` that fails has freed what it has allocated. -/
theorem Accounted.refused (accounted : d.Accounted) (block : e.block = d.block)
    (mallocs : e.mallocs = d.mallocs ++ [t]) (frees : e.frees = d.frees ++ [d.mallocs.length])
    (jobs : e.jobs = d.jobs) : e.Accounted where
  bound := by
    rw [mallocs, frees]
    intro stack member
    rw [List.length_append, List.length_singleton]
    obtain old | new := List.mem_append.mp member
    · exact (accounted.bound stack old).trans (Nat.lt_succ_self _)
    · rw [List.mem_singleton.mp new]
      exact Nat.lt_succ_self _
  allocated := by
    rw [mallocs]
    exact fun x known => List.mem_append_left _ (accounted.allocated x (known.of_block block))
  held := by
    rw [block, mallocs, frees]
    intro x stack holds
    obtain ⟨own, unpaid⟩ := accounted.held x stack holds
    have inside : stack < d.mallocs.length := (List.getElem?_eq_some_iff.mp own).1
    refine ⟨getElem?_snoc.mpr (.inl own), ?_⟩
    rw [List.count_append, unpaid, List.count_singleton, if_neg (by simpa using inside.ne')]
  paid := by
    rw [block, mallocs, frees]
    intro x stack allocated
    rw [List.count_append, List.count_singleton]
    obtain before | ⟨rfl, _⟩ := getElem?_snoc.mp allocated
    · have inside : stack < d.mallocs.length := (List.getElem?_eq_some_iff.mp before).1
      rw [if_neg (by simpa using inside.ne')]
      exact accounted.paid x stack before
    · rw [accounted.unused]
      exact .inl (by simp)
  jobs := by
    rw [jobs, block]
    exact accounted.jobs

/-- A new uthread holds the stack allocated for it. -/
theorem Accounted.granted (accounted : d.Accounted) (off : ¬ d.Enrolled t)
    (block : e.block = Function.update d.block t (some (some d.mallocs.length)))
    (mallocs : e.mallocs = d.mallocs ++ [t]) (frees : e.frees = d.frees)
    (jobs : e.jobs = t :: d.jobs) : e.Accounted where
  bound := by
    rw [mallocs, frees, List.length_append]
    exact fun stack member => (accounted.bound stack member).trans (Nat.lt_succ_self _)
  allocated := by
    rw [mallocs]
    intro x known
    by_cases same : x = t
    · exact List.mem_append_right _ (List.mem_singleton.mpr same)
    · exact List.mem_append_left _ (accounted.allocated x (known.of_update block same))
  held := by
    rw [block, mallocs, frees]
    intro x stack holds
    by_cases same : x = t
    · subst same
      rw [Function.update_self] at holds
      cases holds
      exact ⟨getElem?_snoc.mpr (.inr ⟨rfl, rfl⟩), accounted.unused⟩
    · rw [Function.update_of_ne same] at holds
      obtain ⟨own, unpaid⟩ := accounted.held x stack holds
      exact ⟨getElem?_snoc.mpr (.inl own), unpaid⟩
  paid := by
    rw [block, mallocs, frees]
    intro x stack allocated
    obtain before | ⟨rfl, rfl⟩ := getElem?_snoc.mp allocated
    · obtain paid | holds := accounted.paid x stack before
      · exact .inl paid
      · refine .inr ((Function.update_of_ne ?_ _ _).trans holds)
        rintro rfl
        rw [block_eq_none.mpr off] at holds
        cases holds
    · exact .inr (Function.update_self ..)
  jobs := by
    rw [jobs, block]
    intro x member
    by_cases same : x = t
    · subst same
      exact ⟨d.mallocs.length, Function.update_self ..⟩
    · obtain ⟨stack, holds⟩ := accounted.jobs x ((List.mem_cons.mp member).resolve_left same)
      exact ⟨stack, (Function.update_of_ne same _ _).trans holds⟩

/-- A stack that a uthread holds is freed. -/
theorem Accounted.freed {stack : ℕ} (accounted : d.Accounted)
    (holds : d.block t = some (some stack))
    (block : e.block = Function.update d.block t (some none))
    (mallocs : e.mallocs = d.mallocs) (frees : e.frees = d.frees ++ [stack])
    (jobs : e.jobs = d.jobs) (off : t ∉ d.jobs) : e.Accounted where
  bound := by
    rw [mallocs, frees]
    intro other member
    obtain old | new := List.mem_append.mp member
    · exact accounted.bound other old
    · rw [List.mem_singleton.mp new]
      exact (List.getElem?_eq_some_iff.mp (accounted.held t stack holds).1).1
  allocated := by
    rw [mallocs]
    intro x known
    by_cases same : x = t
    · subst same
      exact List.mem_of_getElem? (accounted.held x stack holds).1
    · exact accounted.allocated x (known.of_update block same)
  held := by
    rw [block, mallocs, frees]
    intro x other held
    by_cases same : x = t
    · subst same
      rw [Function.update_self] at held
      cases held
    · rw [Function.update_of_ne same] at held
      obtain ⟨own, unpaid⟩ := accounted.held x other held
      refine ⟨own, ?_⟩
      rw [List.count_append, unpaid, List.count_singleton, if_neg]
      rintro is
      obtain rfl : stack = other := by simpa using is
      exact same (Option.some.inj (own.symm.trans (accounted.held t stack holds).1))
  paid := by
    rw [block, mallocs, frees]
    intro x other allocated
    obtain ⟨own, unpaid⟩ := accounted.held t stack holds
    rw [List.count_append, List.count_singleton]
    by_cases same : stack = other
    · subst same
      exact .inl (by simp [unpaid])
    · rw [if_neg (by simpa using same)]
      obtain paid | held := accounted.paid x other allocated
      · exact .inl paid
      · refine .inr ((Function.update_of_ne ?_ _ _).trans held)
        rintro rfl
        rw [holds] at held
        cases held
        exact same rfl
  jobs := by
    rw [jobs, block]
    intro x member
    obtain ⟨other, held⟩ := accounted.jobs x member
    refine ⟨other, (Function.update_of_ne ?_ _ _).trans held⟩
    rintro rfl
    exact off member

/-- The stacks after `uthread_create`. -/
theorem create_cases {startRoutine : Word → Code} {arg : Word} {after : Bool → Code}
    (off : ¬ d.Enrolled t) (made : e = d.create t startRoutine arg after answer) :
    (e.block = d.block ∧ e.jobs = d.jobs ∧ (e.mallocs = d.mallocs ∧ e.frees = d.frees ∨
      e.mallocs = d.mallocs ++ [t] ∧ e.frees = d.frees ++ [d.mallocs.length])) ∨
    e.block = Function.update d.block t (some (some d.mallocs.length)) ∧ e.jobs = t :: d.jobs ∧
      e.mallocs = d.mallocs ++ [t] ∧ e.frees = d.frees := by
  have refused : ∀ v : Uthread, v.startRoutine = none → (d.install t v).block = d.block := by
    intro v none
    rw [block_install, none, Function.update_eq_self_iff, block_eq_none.mpr off]
    rfl
  subst made
  cases answer with
  | noMemory => exact .inl ⟨refused zeroed rfl, rfl, .inl ⟨rfl, rfl⟩⟩
  | noContext =>
      exact .inl ⟨refused { zeroed with stack := some d.mallocs.length } rfl, rfl, .inr ⟨rfl, rfl⟩⟩
  | granted => exact .inr ⟨block_install d t _, rfl, rfl, rfl⟩

/-- What is created was not enrolled. -/
theorem Distinct.off {startRoutine : Word → Code} {arg : Word} {after : Bool → Code}
    (distinct : d.Distinct) (place : d.running.point = .code (.create t startRoutine arg after)) :
    ¬ d.Enrolled t := by
  unfold Distinct at distinct
  rwa [place] at distinct

/-- **The step lemma.** Every stack is accounted for. -/
theorem Accounted.step (accounted : d.Accounted) (sound : d.Sound) (distinct : d.Distinct)
    (done : d.step answer = some e) : e.Accounted := by
  obtain ⟨t, startRoutine, arg, after, place, made⟩ | ⟨_, point, _, _, rfl⟩ |
    ⟨_, t, rest, after, _, jobs, launched⟩ | ⟨owner, t, after, u, place, here, rfl⟩ |
    ⟨self, code, event, _, _, rfl⟩ | ⟨self, u, result, t, after, _, here, jobs, _, rfl⟩ |
    ⟨self, u, result, t, rest, _, here, jobs, launched⟩ := step_cases done
  · have off := distinct.off place
    obtain ⟨block, jobs, ⟨mallocs, frees⟩ | ⟨mallocs, frees⟩⟩ | ⟨block, jobs, mallocs, frees⟩ :=
      create_cases off made
    · exact accounted.same block mallocs frees fun x member => jobs ▸ member
    · exact accounted.refused block mallocs frees jobs
    · exact accounted.granted off block mallocs frees jobs
  · exact accounted.same rfl rfl rfl fun _ member => member
  · obtain ⟨block, mallocs, frees, fewer, _⟩ := block_launch launched
    exact accounted.same block mallocs frees fun x member =>
      jobs ▸ List.mem_cons_of_mem _ (fewer ▸ member)
  · obtain ⟨empty, u', here', created⟩ := (sound.main owner).2 t after place
    obtain rfl := Option.some.inj (here.symm.trans here')
    obtain ⟨_, same⟩ | ⟨stack, holds, block, frees, mallocs, jobs⟩ := free_cases here created
    · rw [same]
      exact accounted.same rfl rfl rfl fun _ member => member
    · exact accounted.freed holds block mallocs frees jobs (by simp [empty])
  · exact accounted.same rfl rfl rfl fun _ member => member
  · exact accounted.same (block_finish result here) rfl rfl fun _ member => member
  · obtain ⟨block, mallocs, frees, fewer, _⟩ := block_launch launched
    exact accounted.same (block.trans (block_finish _ here)) mallocs frees fun x member =>
      jobs ▸ List.mem_cons_of_mem _ (fewer ▸ member)

/-! ## Alone at the end -/

/-- A uthread that ends has no READY one to hand over to. -/
def Alone (d : Roster) : Prop :=
  ∀ self result, d.running = ⟨some self, .code (.done result)⟩ → d.jobs = []

/-- main waits for the uthread that runs, and all that have ended and have been collected
have no stack. -/
structure Collected (d : Roster) : Prop where
  waits : ∀ self, d.running.owner = some self → ∃ after, d.waiting = some (self, after)
  held : ∀ t stack, d.block t = some (some stack) →
    t ∈ d.jobs ∨ d.running.owner = some t ∨ ∃ after, d.running.point = .resumed t after

theorem Collected.start : (start code).Collected where
  waits := fun _ is => by cases is
  held := fun _ _ held => by cases held

/-- Only main is ever behind a switch of `uthread_run_all`. -/
theorem Sound.not_resumed (sound : d.Sound) (owner : d.running.owner = some self) (t : Ptr)
    (after : Code) : d.running.point ≠ .resumed t after := by
  intro place
  obtain ⟨_, ⟨_, _, _, _, underway⟩, _⟩ := sound.uthread self owner
  unfold Underway at underway
  rwa [place] at underway

/-- In main's hands nothing but the jobs has a stack. -/
theorem Collected.idle {stack : ℕ} (collected : d.Collected) (owner : d.running.owner = none)
    (off : ∀ after, d.running.point ≠ .resumed t after) (held : d.block t = some (some stack)) :
    t ∈ d.jobs := by
  obtain job | runs | ⟨after, resumed⟩ := collected.held t stack held
  · exact job
  · cases owner.symm.trans runs
  · exact absurd resumed (off after)

/-- While a uthread runs, it and the jobs have stacks. -/
theorem Collected.busy {stack : ℕ} (collected : d.Collected) (sound : d.Sound)
    (owner : d.running.owner = some self) (held : d.block t = some (some stack)) :
    t ∈ d.jobs ∨ self = t := by
  obtain job | runs | ⟨after, resumed⟩ := collected.held t stack held
  · exact .inl job
  · exact .inr (Option.some.inj (owner.symm.trans runs))
  · exact absurd resumed (sound.not_resumed owner t after)

/-- A creation puts its object among the jobs, and leaves the others where they are. -/
theorem Collected.create {startRoutine : Word → Code} {arg : Word} {after : Bool → Code}
    (collected : d.Collected) (off : ¬ d.Enrolled t)
    (place : d.running.point = .code (.create t startRoutine arg after))
    (made : e = d.create t startRoutine arg after answer) : e.Collected := by
  have same : e.running.owner = d.running.owner ∧ e.waiting = d.waiting := by
    subst made
    cases answer <;> exact ⟨rfl, rfl⟩
  have stays : ∀ x stack, d.block x = some (some stack) →
      x ∈ d.jobs ∨ e.running.owner = some x := by
    intro x stack held
    obtain job | runs | ⟨_, resumed⟩ := collected.held x stack held
    · exact .inl job
    · exact .inr (same.1.trans runs)
    · cases place.symm.trans resumed
  refine ⟨fun x is => ?_, fun x stack held => ?_⟩
  · rw [same.2]
    exact collected.waits x (same.1.symm.trans is)
  · obtain ⟨block, jobs, _⟩ | ⟨block, jobs, _⟩ := create_cases off made
    · rw [block] at held
      exact (jobs ▸ stays x stack held).imp id .inl
    · rw [jobs]
      by_cases apart : x = t
      · exact .inl (List.mem_cons.mpr (.inl apart))
      · rw [block, Function.update_of_ne apart] at held
        exact (stays x stack held).imp (List.mem_cons_of_mem _) .inl

/-- main has collected the uthread whose stack it frees. -/
theorem Collected.free (collected : d.Collected) (owner : d.running.owner = none)
    (place : d.running.point = .resumed t code) (here : d.uthreads t = some u)
    (created : u.Created) : ((d.free t u).goto (.looping code)).Collected := by
  obtain ⟨_, _, jobs, running, _⟩ := d.free_same here
  refine ⟨fun x is => ?_, fun x stack held => .inl ?_⟩
  · have is : (d.free t u).running.owner = some x := is
    cases (running ▸ owner : (d.free t u).running.owner = none).symm.trans is
  · have held : (d.free t u).block x = some (some stack) := held
    change x ∈ (d.free t u).jobs
    rw [jobs]
    by_cases apart : x = t
    · subst apart
      obtain ⟨free, same⟩ | ⟨_, _, block, _⟩ := free_cases here created
      · rw [same, free] at held
        cases held
      · rw [block, Function.update_self] at held
        cases held
    · refine collected.idle owner (fun after resumed => ?_)
        (?_ : d.block x = some (some stack))
      · cases place.symm.trans resumed
        exact apart rfl
      · obtain ⟨_, same⟩ | ⟨_, _, block, _⟩ := free_cases here created
        · exact same ▸ held
        · rwa [block, Function.update_of_ne apart] at held

/-- Where uthreads end alone, each one is started, waited for and collected by main. -/
theorem Collected.step (collected : d.Collected) (sound : d.Sound) (distinct : d.Distinct)
    (alone : d.Alone) (done : d.step answer = some e) : e.Collected := by
  obtain ⟨t, startRoutine, arg, after, place, made⟩ | ⟨owner, point, off, _, rfl⟩ |
    ⟨owner, t, rest, after, off, jobs, launched⟩ | ⟨owner, t, after, u, place, here, rfl⟩ |
    ⟨self, code, event, owner, _, rfl⟩ |
    ⟨self, u, result, t, after, running, here, jobs, waiting, rfl⟩ |
    ⟨self, u, result, t, rest, running, _, jobs, _⟩ := step_cases done
  · exact collected.create (distinct.off place) place made
  · refine ⟨fun x is => ?_, fun x stack held => .inl (collected.idle owner (off x) held)⟩
    cases owner.symm.trans is
  · obtain ⟨block, _, _, fewer, runs, waiting⟩ := block_launch launched
    have runs : e.running.owner = some t := by rw [runs]
    refine ⟨fun x is => ?_, fun x stack held => ?_⟩
    · obtain rfl := Option.some.inj (runs.symm.trans is)
      exact ⟨after, waiting⟩
    · have job := collected.idle owner (off x) (block ▸ held : d.block x = some (some stack))
      rw [jobs] at job
      obtain rfl | later := List.mem_cons.mp job
      · exact .inr (.inl runs)
      · exact .inl (fewer ▸ later)
  · obtain ⟨_, u', here', created⟩ := (sound.main owner).2 t after place
    obtain rfl := Option.some.inj (here.symm.trans here')
    exact collected.free owner place here created
  · refine ⟨fun x is => collected.waits x is, fun x stack held => ?_⟩
    obtain job | rfl := collected.busy sound owner held
    · exact .inl job
    · exact .inr (.inl owner)
  · have owner : d.running.owner = some self := by rw [running]
    refine ⟨fun x is => (by cases is), fun x stack held => ?_⟩
    have holds : d.block x = some (some stack) :=
      (congrFun (block_finish _ here) x).symm.trans held
    obtain ⟨after', waits⟩ := collected.waits self owner
    obtain ⟨rfl, rfl⟩ : self = t ∧ after' = after := by simpa [waits] using waiting
    obtain job | rfl := collected.busy sound owner holds
    · exact .inl job
    · exact .inr (.inr ⟨_, rfl⟩)
  · cases jobs.symm.trans (alone self result running)

/-- A uthread whose stack is never freed: main does not wait for it. -/
structure Forgotten (d : Roster) (t : Ptr) : Prop where
  held : ∃ stack, d.block t = some (some stack)
  job : t ∉ d.jobs
  place : ∀ after, d.running.point ≠ .resumed t after
  waits : ∀ self after, d.running.owner = some self → d.waiting ≠ some (t, after)

/-- A uthread that is handed over to is forgotten. -/
theorem Sound.forgets {result : Word} (sound : d.Sound) (accounted : d.Accounted)
    (running : d.running = ⟨some self, .code (.done result)⟩) (others : d.jobs ≠ [])
    (done : d.step answer = some e) : ∃ t, e.Forgotten t := by
  have owner : d.running.owner = some self := by rw [running]
  obtain ⟨t, startRoutine, arg, after, place, _⟩ | ⟨main, _⟩ | ⟨main, _⟩ | ⟨main, _⟩ |
    ⟨_, _, _, _, going, _⟩ | ⟨_, _, _, _, _, _, _, jobs, _⟩ |
    ⟨self', u, result', t, rest, _, here, jobs, launched⟩ := step_cases done
  · rw [running] at place
    cases place
  · cases owner.symm.trans main
  · cases owner.symm.trans main
  · cases owner.symm.trans main
  · exact absurd (by rw [running]) (going result)
  · exact absurd jobs others
  · obtain ⟨block, _, _, fewer, runs, waiting⟩ := block_launch launched
    obtain ⟨stack, held⟩ := accounted.jobs t (jobs ▸ List.mem_cons_self)
    obtain ⟨_, _, x, after, waits, _, notJob, _⟩ := sound.uthread self owner
    refine ⟨t, ⟨stack, ?_⟩, ?_, fun after resumed => ?_, fun _ after' _ is => ?_⟩
    · rw [block, block_finish _ here, held]
    · rw [fewer]
      exact (List.nodup_cons.mp (jobs ▸ sound.kept.nodup)).1
    · rw [runs] at resumed
      cases resumed
    · have waits' : d.waiting = some (t, after') := waiting.symm.trans is
      obtain ⟨rfl, _⟩ : x = t ∧ after = after' := by simpa [waits] using waits'
      exact notJob (jobs ▸ List.mem_cons_self)

/-- Another uthread runs for the first time. -/
theorem Forgotten.launch {rest : List Ptr} {x : Ptr} (forgotten : d.Forgotten t)
    (jobs : d.jobs = x :: rest) (block : e.block = d.block) (fewer : e.jobs = rest)
    (runs : e.running = ⟨some x, .entry⟩) (waits : ∀ after, e.waiting ≠ some (t, after)) :
    e.Forgotten t where
  held := block ▸ forgotten.held
  job := by
    rw [fewer]
    exact fun later => forgotten.job (jobs ▸ List.mem_cons_of_mem _ later)
  place := by
    rw [runs]
    exact fun after is => by cases is
  waits := fun _ after _ => waits after

/-- A creation brings no forgotten stack back. -/
theorem Forgotten.create {x : Ptr} {startRoutine : Word → Code} {arg : Word}
    {after : Bool → Code} (forgotten : d.Forgotten t) (off : ¬ d.Enrolled x)
    (made : e = d.create x startRoutine arg after answer) : e.Forgotten t := by
  obtain ⟨stack, held⟩ := forgotten.held
  have apart : t ≠ x := by
    rintro rfl
    rw [block_eq_none.mpr off] at held
    cases held
  have stays : e.block t = d.block t ∧ t ∉ e.jobs := by
    obtain ⟨block, jobs, _⟩ | ⟨block, jobs, _⟩ := create_cases off made
    · exact ⟨congrFun block t, jobs ▸ forgotten.job⟩
    · refine ⟨by rw [block, Function.update_of_ne apart], ?_⟩
      rw [jobs, List.mem_cons, not_or]
      exact ⟨apart, forgotten.job⟩
  refine ⟨⟨stack, stays.1.trans held⟩, stays.2, fun after is => ?_, fun self after is => ?_⟩
  · subst made
    cases answer <;> cases is
  · subst made
    cases answer <;> exact forgotten.waits self after is

/-- Nor does the freeing of another one. -/
theorem Forgotten.free (forgotten : d.Forgotten t) {x : Ptr} (apart : t ≠ x)
    (here : d.uthreads x = some u) (created : u.Created) (owner : d.running.owner = none) :
    ((d.free x u).goto (.looping code)).Forgotten t := by
  obtain ⟨stack, held⟩ := forgotten.held
  obtain ⟨_, _, jobs, running, _⟩ := d.free_same here
  refine ⟨⟨stack, ?_⟩, ?_, fun after is => (by cases is), fun self after is => ?_⟩
  · change (d.free x u).block t = _
    obtain ⟨_, same⟩ | ⟨_, _, block, _⟩ := free_cases here created
    · rw [same, held]
    · rw [block, Function.update_of_ne apart, held]
  · change t ∉ (d.free x u).jobs
    exact jobs ▸ forgotten.job
  · have is : (d.free x u).running.owner = some self := is
    rw [running, owner] at is
    cases is

/-- A forgotten uthread stays so. -/
theorem Forgotten.step (forgotten : d.Forgotten t) (sound : d.Sound) (distinct : d.Distinct)
    (done : d.step answer = some e) : e.Forgotten t := by
  obtain ⟨x, startRoutine, arg, after, place, made⟩ | ⟨owner, point, _, off, rfl⟩ |
    ⟨owner, x, rest, after, off, jobs, launched⟩ | ⟨owner, x, after, u, place, here, rfl⟩ |
    ⟨self, code, event, owner, _, rfl⟩ |
    ⟨self, u, result, x, after, running, here, jobs, waiting, rfl⟩ |
    ⟨self, u, result, x, rest, running, here, jobs, launched⟩ := step_cases done
  · exact forgotten.create (distinct.off place) made
  · exact ⟨forgotten.held, forgotten.job, off t, forgotten.waits⟩
  · obtain ⟨block, _, _, fewer, runs, waiting⟩ := block_launch launched
    refine forgotten.launch jobs block fewer runs fun after is => ?_
    rw [waiting] at is
    cases is
    exact forgotten.job (jobs ▸ List.mem_cons_self)
  · obtain ⟨_, u', here', created⟩ := (sound.main owner).2 x after place
    obtain rfl := Option.some.inj (here.symm.trans here')
    refine forgotten.free ?_ here created owner
    rintro rfl
    exact forgotten.place after place
  · exact ⟨forgotten.held, forgotten.job, fun after is => (by cases is), forgotten.waits⟩
  · refine ⟨?_, forgotten.job, fun after' is => ?_, fun _ _ is => (by cases is)⟩
    · exact (block_finish _ here).symm ▸ forgotten.held
    · cases is
      exact forgotten.waits self after (by rw [running]) waiting
  · obtain ⟨block, _, _, fewer, runs, waiting⟩ := block_launch launched
    refine forgotten.launch jobs (block.trans (block_finish _ here)) fewer runs fun after is => ?_
    rw [waiting] at is
    exact forgotten.waits self after (by rw [running]) is

end Roster

namespace World

variable {w next : World} {d e : Roster} {t self : Ptr} {u : Uthread} {main code : Code}
  {answer : Answer}

/-- A call of `uthread_run_all` returns. -/
def Returns (w next : World) : Prop :=
  ∃ answer code, w.running = ⟨none, .looping code⟩ ∧ w.step answer = some next ∧
    next.running = ⟨none, .code code⟩

/-- Of every uthread `stack` is NULL, and what was allocated for it has been freed once. -/
def AllFreed (w : World) : Prop :=
  ∀ t u, w.heap t = some u → u.Created → u.stack = none ∧ t ∈ w.mallocs ∧
    ∀ stack, w.mallocs[stack]? = some t → w.frees.count stack = 1

/-- If a `start_routine` is about to return, no uthread is READY. -/
def Alone (w : World) : Prop :=
  ∀ self result, w.running = ⟨some self, .code (.done result)⟩ → ∀ t, ¬ w.Ready t

/-- The jobs are the READY uthreads. -/
theorem Serves.ready_iff (serves : w.Serves d) (sound : d.Sound) : w.Ready t ↔ t ∈ d.jobs := by
  constructor
  · rintro ⟨u, here, ready, created⟩
    have there : d.uthreads t = some (bare u) := by rw [serves.view, here, Option.map_some]
    by_contra off
    by_cases busy : d.running.owner = some t
    · obtain ⟨_, ⟨b, there', _, running, _⟩, _⟩ := sound.uthread t busy
      obtain rfl := Option.some.inj (there.symm.trans there')
      cases ready.symm.trans running
    · cases ready.symm.trans (sound.kept.ended t (bare u) there created off busy).1
  · intro job
    obtain ⟨b, there, created, ready, _⟩ := sound.kept.jobs t job
    obtain ⟨u, here, rfl⟩ := serves.heap there
    exact ⟨u, here, ready, created⟩

/-- The condition on memory is the one on the roster. -/
theorem Serves.alone_iff (serves : w.Serves d) (sound : d.Sound) : w.Alone ↔ d.Alone := by
  unfold Alone Roster.Alone
  rw [serves.running]
  refine forall₃_congr fun self result _ => ?_
  rw [List.eq_nil_iff_forall_not_mem]
  exact forall_congr' fun t => not_congr (serves.ready_iff sound)

/-- The block of a created object is what its `stack` holds. -/
theorem Serves.block (serves : w.Serves d) (here : w.heap t = some u) (created : u.Created) :
    d.block t = some u.stack :=
  Roster.block_eq_some.mpr ⟨bare u, by rw [serves.view, here, Option.map_some], created, rfl⟩

/-- A uthread whose stack has been freed. -/
theorem Serves.allFreed (serves : w.Serves d) (accounted : d.Accounted)
    (free : ∀ t stack, d.block t ≠ some (some stack)) : w.AllFreed := by
  intro t u here created
  have block := serves.block here created
  have known : d.Enrolled t := by
    by_contra absent
    rw [Roster.block_eq_none.mpr absent] at block
    cases block
  refine ⟨?_, serves.mallocs ▸ accounted.allocated t known, fun stack allocated => ?_⟩
  · cases own : u.stack with
    | none => rfl
    | some stack => exact absurd (own ▸ block) (free t stack)
  · rw [← serves.mallocs] at allocated
    rw [← serves.frees]
    exact (accounted.paid t stack allocated).resolve_right (free t stack)

/-- Where a stack is forgotten, not all are freed. -/
theorem Serves.not_allFreed (serves : w.Serves d) (forgotten : d.Forgotten t) : ¬ w.AllFreed := by
  obtain ⟨stack, held⟩ := forgotten.held
  obtain ⟨b, there, created, own⟩ := Roster.block_eq_some.mp held
  obtain ⟨u, here, rfl⟩ := serves.heap there
  intro all
  have own : u.stack = some stack := own
  cases own.symm.trans (all t u here created).1

/-- main leaves `uthread_run_all` with no jobs. -/
theorem Serves.returns (serves : w.Serves d) (sound : d.Sound) (distinct : w.Distinct)
    (returns : w.Returns next) : ∃ code, d.running = ⟨none, .looping code⟩ ∧ d.jobs = [] ∧
      next.Serves (d.goto (.code code)) := by
  obtain ⟨answer, code, place, stepped, after⟩ := returns
  have running : d.running = ⟨none, .looping code⟩ := serves.running.trans place
  obtain ⟨stuck, _⟩ | ⟨next', e, stepped', moved, serves', _⟩ :=
    serves.step sound distinct answer
  · cases stuck.symm.trans stepped
  obtain rfl := Option.some.inj (stepped'.symm.trans stepped)
  unfold Roster.step at moved
  rw [running] at moved
  cases jobs : d.jobs with
  | nil =>
      simp only [jobs] at moved
      obtain rfl := Option.some.inj moved
      exact ⟨code, running, rfl, serves'⟩
  | cons t rest =>
      simp only [jobs] at moved
      obtain ⟨_, _, _, _, runs, _⟩ := Roster.block_launch moved
      cases runs.symm.trans (serves'.running.trans after)

/-- In a run in which every uthread so far has ended alone. -/
theorem reached_collected (isMain : main.Main)
    (distinct : ∀ v, Transition.Reaches World.step (World.start main) v → v.Distinct)
    (reached : Transition.ReachesBy World.step (fun w _ => w.Alone) (World.start main) w) :
    ∃ d, w.Serves d ∧ d.Sound ∧ d.Accounted ∧ d.Collected :=
  reached_keeps (motive := fun d => d.Accounted ∧ d.Collected)
    (fun v before => distinct v before.reaches)
    (fun _ _ _ _ serves sound apart alone ⟨accounted, collected⟩ done =>
      ⟨accounted.step sound apart done,
        collected.step sound apart ((serves.alone_iff sound).mp alone) done⟩)
    ⟨_, .start main, .start isMain, .start, .start⟩ reached

/-- **The run lemma.** Every reachable state serves a roster whose stacks are accounted for.
-/
theorem reached_accounted (isMain : main.Main)
    (distinct : ∀ v, Transition.Reaches World.step (World.start main) v → v.Distinct)
    (reached : Transition.Reaches World.step (World.start main) w) :
    ∃ d, w.Serves d ∧ d.Sound ∧ d.Accounted :=
  reached_keeps distinct
    (fun _ _ _ _ _ sound apart _ accounted done => accounted.step sound apart done)
    ⟨_, .start main, .start isMain, .start⟩ reached

/-- After a uthread has ended while another one was READY. -/
theorem reached_forgotten (isMain : main.Main)
    (distinct : ∀ v, Transition.Reaches World.step (World.start main) v → v.Distinct)
    (reached : Transition.Reaches World.step (World.start main) w) (handsOver : ¬ w.Alone)
    (stepped : w.step answer = some next) :
    ∃ d, next.Serves d ∧ d.Sound ∧ ∃ t, d.Forgotten t := by
  obtain ⟨d, serves, sound, accounted⟩ := reached_accounted isMain distinct reached
  obtain ⟨stuck, _⟩ | ⟨next', e, moved, done, serves', sound'⟩ :=
    serves.step sound (distinct _ reached) answer
  · cases stuck.symm.trans stepped
  obtain rfl := Option.some.inj (moved.symm.trans stepped)
  rw [serves.alone_iff sound] at handsOver
  unfold Roster.Alone at handsOver
  push Not at handsOver
  obtain ⟨self, result, running, others⟩ := handsOver
  exact ⟨e, serves', sound', sound.forgets accounted running others done⟩

/-- **Whose stack is freed.** Where main calls only `uthread_create` and `uthread_run_all`,
uthreads call only `uthread_create` and `uthread_yield`, and no object is created twice: if
no `start_routine` returns while another uthread is READY, every call of `uthread_run_all`
leaves all stacks freed, and behind a `start_routine` that does, none does. -/
theorem stacks_freed_iff_alone (isMain : main.Main)
    (distinct : ∀ v, Transition.Reaches World.step (World.start main) v → v.Distinct) :
    (∀ w next, Transition.ReachesBy World.step (fun w _ => w.Alone) (World.start main) w →
      w.Returns next → next.AllFreed) ∧
    ∀ w answer v, Transition.Reaches World.step (World.start main) w → ¬ w.Alone →
      w.step answer = some v → ∀ x next, Transition.Reaches World.step v x → x.Returns next →
        ¬ next.AllFreed := by
  constructor
  · intro w next reached returns
    obtain ⟨d, serves, sound, accounted, collected⟩ := reached_collected isMain distinct reached
    obtain ⟨code, running, jobs, serves'⟩ :=
      serves.returns sound (distinct w reached.reaches) returns
    refine serves'.allFreed (accounted.same rfl rfl rfl fun _ job => job) fun t stack held => ?_
    have job := collected.idle (by rw [running])
      (fun after is => by rw [running] at is; cases is) (held : d.block t = some (some stack))
    rw [jobs] at job
    cases job
  · intro w answer v reached handsOver stepped x next later returns
    have within : ∀ y, Transition.Reaches World.step v y →
        Transition.Reaches World.step (World.start main) y :=
      fun y after => (reached.next answer stepped).trans after
    obtain ⟨d, serves, sound, t, forgotten⟩ := reached_keeps
      (motive := fun d => ∃ t, d.Forgotten t) (fun y after => distinct y (within y after))
      (fun _ _ _ _ _ sound apart _ ⟨t, forgotten⟩ done => ⟨t, forgotten.step sound apart done⟩)
      (reached_forgotten isMain distinct reached handsOver stepped) later
    obtain ⟨code, _, _, serves'⟩ := serves.returns sound (distinct x (within x later)) returns
    exact serves'.not_allFreed
      ⟨forgotten.held, forgotten.job, fun after is => (by cases is), forgotten.waits⟩

/-- Two uthreads, and `uthread_run_all`. -/
def two : Code :=
  .create 0 (fun _ => .done 0) 1 fun _ => .create 1 (fun _ => .done 0) 2 fun _ => .runAll (.done 0)

theorem two_main : two.Main := ⟨trivial, fun _ => ⟨trivial, fun _ => trivial⟩⟩

theorem two_distinct {v : World} (reached : Transition.Reaches World.step (World.start two) v) :
    v.Distinct :=
  distinct_of (reached.of_explore answers 20 answers_complete
    (by decide +kernel))

/-- In `two` uthread 1 ends while 0 is READY, and 0 keeps its stack. -/
theorem two_reached : ∃ w v x next, Transition.Reaches World.step (World.start two) w ∧
    ¬ w.Alone ∧ w.step .granted = some v ∧ Transition.Reaches World.step v x ∧ x.Returns next ∧
      Transition.Reaches World.step (World.start two) next ∧
        ∃ u, next.heap 0 = some u ∧ u.Created ∧ u.stack = some 0 := by
  have ran : ((Transition.run World.step (World.start two) (List.replicate 5 .granted)).bind
      fun w => (w.step .granted).bind fun v =>
        (Transition.run World.step v (List.replicate 3 .granted)).bind fun x =>
          (x.step .granted).map fun next => (w.running, decide (w.Ready 0), x.running, next.running,
            (next.heap 0).map fun u => (u.startRoutine.isSome, u.stack))) =
      some (⟨some 1, .code (.done 0)⟩, true, ⟨none, .looping (.done 0)⟩, ⟨none, .code (.done 0)⟩,
        some (true, some 0)) := rfl
  obtain ⟨w, before, rest⟩ := Option.bind_eq_some_iff.mp ran
  obtain ⟨v, stepped, rest⟩ := Option.bind_eq_some_iff.mp rest
  obtain ⟨x, later, rest⟩ := Option.bind_eq_some_iff.mp rest
  obtain ⟨next, left, facts⟩ := Option.map_eq_some_iff.mp rest
  simp only [Prod.mk.injEq, decide_eq_true_eq, Option.map_eq_some_iff] at facts
  obtain ⟨running, ready, looping, returned, u, here, created, held⟩ := facts
  have reached := Transition.Reaches.of_run before .start
  have after := Transition.Reaches.of_run later .start
  exact ⟨w, v, x, next, reached, fun alone => alone 1 0 running 0 ready, stepped, after,
    ⟨.granted, .done 0, looping, left, returned⟩,
      .step .granted ((reached.next .granted stepped).trans after) trivial left, u, here, created,
        held⟩

/-- Two uthreads, each of which has ended when the next one is created. -/
def inTurn : Code :=
  .create 0 (fun _ => .yield (.done 0)) 1 fun _ => .runAll
    (.create 1 (fun _ => .done 0) 2 fun _ => .runAll (.done 0))

theorem inTurn_main : inTurn.Main := ⟨trivial, fun _ => ⟨trivial, fun _ => trivial⟩⟩

theorem inTurn_distinct {v : World}
    (reached : Transition.Reaches World.step (World.start inTurn) v) : v.Distinct :=
  distinct_of (reached.of_explore answers 40 answers_complete
    (by decide +kernel))

/-- `Alone`, to be computed. -/
def alone (w : World) : Bool :=
  match w.running with
  | ⟨some _, .code (.done _)⟩ => w.objects.all fun t => !decide (w.Ready t)
  | _ => true

theorem alone_of (known : w.Known) (passed : w.alone = true) : w.Alone := by
  rintro self result place t ready
  obtain ⟨u, here, _⟩ := id ready
  unfold alone at passed
  rw [place] at passed
  have away := List.all_eq_true.mp passed t (known t u here)
  simp [ready] at away

/-- In `inTurn` no uthread ends while the other one is READY. -/
theorem inTurn_reached : ∃ x next, Transition.ReachesBy World.step (fun w _ => w.Alone)
    (World.start inTurn) x ∧ x.Returns next ∧ next.frees = [0, 1] := by
  have ran : ((Transition.run (Transition.guarded World.step fun w _ => w.alone)
      (World.start inTurn) (List.replicate 14 .granted)).bind fun x =>
        (x.step .granted).map fun next => (x.running, next.running, next.frees)) =
      some (⟨none, .looping (.done 0)⟩, ⟨none, .code (.done 0)⟩, [0, 1]) := rfl
  obtain ⟨x, before, rest⟩ := Option.bind_eq_some_iff.mp ran
  obtain ⟨next, left, facts⟩ := Option.map_eq_some_iff.mp rest
  simp only [Prod.mk.injEq] at facts
  obtain ⟨looping, returned, freed⟩ := facts
  refine ⟨x, next, .of_guarded_reached before (fun v _ reached passed => ?_) .start,
    ⟨.granted, _, looping, left, returned⟩, freed⟩
  obtain ⟨d, serves, _⟩ := reached_serves inTurn_main (fun _ => inTurn_distinct) reached.reaches
  exact alone_of serves.known passed

/-- The theorem where both uthreads of `inTurn` have ended, and where uthread 1 of `two` ends. -/
theorem stacks_freed_iff_alone_run :
    (∃ x next : World, x.Returns next ∧ next.frees = [0, 1] ∧ next.AllFreed) ∧
    ∃ x next : World,
      Transition.Reaches World.step (World.start two) next ∧ x.Returns next ∧ ¬ next.AllFreed := by
  obtain ⟨x, next, reached, returns, freed⟩ := inTurn_reached
  refine ⟨⟨x, next, returns, freed, (stacks_freed_iff_alone inTurn_main
    fun _ => inTurn_distinct).1 x next reached returns⟩, ?_⟩
  obtain ⟨w, v, x, next, reached, handsOver, stepped, later, returns, reached', _⟩ := two_reached
  exact ⟨x, next, reached', returns, (stacks_freed_iff_alone two_main fun _ => two_distinct).2 w
    .granted v reached handsOver stepped x next later returns⟩

/-- A stack that is not freed when `uthread_run_all` returns. -/
theorem stack_never_freed : ¬ ∀ x next : World,
    Transition.Reaches World.step (World.start two) next → x.Returns next → next.AllFreed := by
  intro frees
  obtain ⟨_, _, x, next, _, _, _, _, returns, reached, u, here, created, held⟩ := two_reached
  cases held.symm.trans (frees x next reached returns 0 u here created).1

end World

end OperationSystems.UserThread
