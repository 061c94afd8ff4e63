import Mathlib.Logic.Relation

/-!
# Partial step functions and their runs

A concurrent program is given by a partial step function: a state, a label that
names the agent and what its environment answers, and the next state when the
label is possible there. This file has what its proofs need of that: the states
reached when every step is allowed by a condition on the state before it, the
invariant rule, and the rule that carries an invariant of an abstract relation
down to the step function along a state abstraction that may stutter.
-/

namespace Transition

variable {State Label Abstract : Type*}

/-- Execute a list of labels, failing at the first one that is not possible. -/
def run (step : State → Label → Option State) : State → List Label → Option State
  | state, [] => some state
  | state, label :: labels => (step state label).bind fun next => run step next labels

/-- The states reached from `start` by steps that all satisfy `allowed`, a
condition on the state before the step and its label. -/
inductive ReachesBy (step : State → Label → Option State) (allowed : State → Label → Prop)
    (start : State) : State → Prop
  | start : ReachesBy step allowed start start
  | step {state next : State} (label : Label) :
      ReachesBy step allowed start state → allowed state label →
        step state label = some next → ReachesBy step allowed start next

/-- The states reached from `start` by any steps. -/
abbrev Reaches (step : State → Label → Option State) (start : State) : State → Prop :=
  ReachesBy step (fun _ _ => True) start

variable {step : State → Label → Option State} {allowed : State → Label → Prop}
  {start middle finish : State}

theorem Reaches.next {next : State} (reached : Reaches step start middle) (label : Label)
    (moved : step middle label = some next) : Reaches step start next :=
  .step label reached trivial moved

/-- A run whose steps are allowed is one of steps that a weaker condition allows. -/
theorem ReachesBy.mono {wider : State → Label → Prop}
    (weaker : ∀ state label, allowed state label → wider state label)
    (reached : ReachesBy step allowed start finish) : ReachesBy step wider start finish := by
  induction reached with
  | start => exact .start
  | step label _ permitted moved ih => exact .step label ih (weaker _ _ permitted) moved

/-- What allowed steps reach, any steps reach. -/
theorem ReachesBy.reaches (reached : ReachesBy step allowed start finish) :
    Reaches step start finish :=
  reached.mono fun _ _ _ => trivial

/-- Two runs, one behind the other. -/
theorem ReachesBy.trans (first : ReachesBy step allowed start middle)
    (second : ReachesBy step allowed middle finish) : ReachesBy step allowed start finish := by
  induction second with
  | start => exact first
  | step label _ permitted moved ih => exact .step label ih permitted moved

/-- A completed run whose labels are allowed everywhere reaches its last state. -/
theorem ReachesBy.of_run {labels : List Label} (ran : run step middle labels = some finish)
    (permitted : ∀ label ∈ labels, ∀ state, allowed state label)
    (reached : ReachesBy step allowed start middle) : ReachesBy step allowed start finish := by
  induction labels generalizing middle with
  | nil =>
      have same : middle = finish := Option.some.inj ran
      exact same ▸ reached
  | cons label labels ih =>
      obtain ⟨next, moved, rest⟩ := Option.bind_eq_some_iff.mp ran
      exact ih rest (fun other member => permitted other (List.mem_cons_of_mem _ member))
        (.step label reached (permitted label List.mem_cons_self _) moved)

/-- A step function that stops where a test on the state and the label fails. -/
def guarded (step : State → Label → Option State) (test : State → Label → Bool) (state : State)
    (label : Label) : Option State :=
  if test state label then step state label else none

/-- A completed run of steps that pass a test reaches its last state, where a step that
passes it in a reached state is allowed. -/
theorem ReachesBy.of_guarded_reached {test : State → Label → Bool} {labels : List Label}
    (ran : run (guarded step test) middle labels = some finish)
    (permits : ∀ state label, ReachesBy step allowed start state → test state label = true →
      allowed state label)
    (reached : ReachesBy step allowed start middle) : ReachesBy step allowed start finish := by
  induction labels generalizing middle with
  | nil =>
      have same : middle = finish := Option.some.inj ran
      exact same ▸ reached
  | cons label labels ih =>
      obtain ⟨next, moved, rest⟩ := Option.bind_eq_some_iff.mp ran
      unfold guarded at moved
      split at moved
      · rename_i passed
        exact ih rest (.step label reached (permits middle label reached passed) moved)
      · cases moved

/-- A completed run of steps that pass a test for being allowed reaches its last
state. -/
theorem ReachesBy.of_guarded {test : State → Label → Bool} {labels : List Label}
    (ran : run (guarded step test) middle labels = some finish)
    (permits : ∀ state label, test state label = true → allowed state label)
    (reached : ReachesBy step allowed start middle) : ReachesBy step allowed start finish :=
  reached.of_guarded_reached ran fun state label _ => permits state label

/-- A completed run reaches its last state. -/
theorem Reaches.of_run {labels : List Label} (ran : run step middle labels = some finish)
    (reached : Reaches step start middle) : Reaches step start finish :=
  ReachesBy.of_run ran (fun _ _ _ => trivial) reached

/-- **The erasure rule.** Where steps with hidden labels leave the erased state alone and
the other ones are steps of it, a run without its hidden labels is a run of the erased
states. -/
theorem run_erase {erase : State → Abstract} {visible : Label → Bool}
    {move : Abstract → Label → Option Abstract}
    (hidden : ∀ state label next, visible label = false → step state label = some next →
      erase next = erase state)
    (shown : ∀ state label next, visible label = true → step state label = some next →
      move (erase state) label = some (erase next))
    {labels : List Label} {state : State} (ran : run step state labels = some finish) :
    run move (erase state) (labels.filter visible) = some (erase finish) := by
  induction labels generalizing state with
  | nil => exact congrArg (fun state => some (erase state)) (Option.some.inj ran)
  | cons label labels ih =>
      obtain ⟨next, moved, rest⟩ := Option.bind_eq_some_iff.mp ran
      cases sees : visible label with
      | false =>
          rw [List.filter_cons_of_neg (by rw [sees]; decide),
            ← hidden state label next sees moved]
          exact ih rest
      | true =>
          rw [List.filter_cons_of_pos sees, run, shown state label next sees moved]
          exact ih rest

/-- **The invariant rule.** What holds at the start and is kept by every allowed
step holds in every state reached by allowed steps. -/
theorem ReachesBy.invariant {motive : State → Prop} (initial : motive start)
    (kept : ∀ state label next, motive state → allowed state label →
      step state label = some next → motive next)
    (reached : ReachesBy step allowed start finish) : motive finish := by
  induction reached with
  | start => exact initial
  | step label _ permitted moved ih => exact kept _ label _ ih permitted moved

/-- **The progress rule.** Where every state of a stage that is not at the goal has an
allowed step that stays in the stage and lowers a measure, the goal can be reached. -/
theorem exists_reachesBy_of_measure (stage goal : State → Prop) (measure : State → Nat)
    (advance : ∀ state, stage state → ¬ goal state → ∃ label next, allowed state label ∧
      step state label = some next ∧ stage next ∧ measure next < measure state)
    {state : State} (begun : stage state) :
    ∃ final, ReachesBy step allowed state final ∧ stage final ∧ goal final := by
  induction fuel : measure state using Nat.strongRecOn generalizing state with
  | _ fuel ih =>
      by_cases done : goal state
      · exact ⟨state, .start, begun, done⟩
      · obtain ⟨label, next, permitted, moved, within, less⟩ := advance state begun done
        obtain ⟨final, reached, ended⟩ := ih _ (fuel ▸ less) within rfl
        exact ⟨final, (ReachesBy.step label .start permitted moved).trans reached, ended⟩

/-- The progress rule for steps that are all allowed. -/
theorem exists_reaches_of_measure (stage goal : State → Prop) (measure : State → Nat)
    (advance : ∀ state, stage state → ¬ goal state → ∃ label next,
      step state label = some next ∧ stage next ∧ measure next < measure state)
    {state : State} (begun : stage state) :
    ∃ final, Reaches step state final ∧ stage final ∧ goal final := by
  refine exists_reachesBy_of_measure stage goal measure (fun state within unfinished => ?_) begun
  obtain ⟨label, next, moved, rest⟩ := advance state within unfinished
  exact ⟨label, next, trivial, moved, rest⟩

/-- The progress rule for whole runs between the states of the stage. -/
theorem exists_reachesBy_of_runs (stage goal : State → Prop) (measure : State → Nat)
    (advance : ∀ state, stage state → ¬ goal state → ∃ next, ReachesBy step allowed state next ∧
      stage next ∧ measure next < measure state)
    {state : State} (begun : stage state) :
    ∃ final, ReachesBy step allowed state final ∧ stage final ∧ goal final := by
  induction fuel : measure state using Nat.strongRecOn generalizing state with
  | _ fuel ih =>
      by_cases done : goal state
      · exact ⟨state, .start, begun, done⟩
      · obtain ⟨next, ran, within, less⟩ := advance state begun done
        obtain ⟨final, reached, ended⟩ := ih _ (fuel ▸ less) within rfl
        exact ⟨final, ran.trans reached, ended⟩

/-- Every run comes to a state in which `stop` holds, and the first such state is good. -/
inductive Comes (step : State → Label → Option State) (stop good : State → Prop) : State → Prop
  | here {state : State} : stop state → good state → Comes step stop good state
  | later {state : State} : ¬ stop state → (∃ label next, step state label = some next) →
      (∀ label next, step state label = some next → Comes step stop good next) →
        Comes step stop good state

/-- **The termination rule.** A stage is left by every step for one with a smaller number,
and a stage in which to stop is good. -/
theorem comes_of_stage {stop good : State → Prop} (stage : Nat → State → Prop)
    (ends : ∀ left state, stage left state → stop state → good state)
    (advance : ∀ left state, stage left state → ¬ stop state →
      (∃ label next, step state label = some next) ∧
        ∀ label next, step state label = some next → ∃ fewer < left, stage fewer next)
    (left : Nat) {state : State} (begun : stage left state) : Comes step stop good state := by
  induction left using Nat.strongRecOn generalizing state with
  | _ left ih =>
      by_cases stops : stop state
      · exact .here stops (ends left state begun stops)
      · obtain ⟨moves, less⟩ := advance left state begun stops
        refine .later stops moves fun label next moved => ?_
        obtain ⟨fewer, lower, within⟩ := less label next moved
        exact ih fewer lower within

/-- Test all states that runs with the listed labels reach, as far as the fuel goes. -/
def explore (step : State → Label → Option State) (labels : State → List Label)
    (test : State → Bool) : Nat → State → Bool
  | 0, _ => false
  | fuel + 1, state => test state && (labels state).all fun label =>
      (step state label).all fun next => explore step labels test fuel next

/-- Where the runs end before the fuel does and the listed labels make all steps, every
state has been tested. -/
theorem Reaches.of_explore (labels : State → List Label) {test : State → Bool} (fuel : Nat)
    (complete : ∀ state label, ∃ other ∈ labels state, step state other = step state label)
    (passed : explore step labels test fuel start = true)
    (reached : Reaches step start finish) : test finish = true := by
  obtain ⟨fuel, passed⟩ : ∃ fuel, explore step labels test fuel finish = true := by
    refine reached.invariant
      (motive := fun state => ∃ fuel, explore step labels test fuel state = true) ⟨fuel, passed⟩ ?_
    rintro state label next ⟨fuel, passed⟩ _ moved
    cases fuel with
    | zero => cases passed
    | succ fuel =>
        obtain ⟨other, listed, same⟩ := complete state label
        rw [explore, Bool.and_eq_true, List.all_eq_true] at passed
        have rest := passed.2 other listed
        rw [same, moved, Option.all_some] at rest
        exact ⟨fuel, rest⟩
  cases fuel with
  | zero => cases passed
  | succ fuel =>
      rw [explore, Bool.and_eq_true] at passed
      exact passed.1

/-- A stuttering simulation: where the concrete invariant holds of a state and
the abstract one of its abstraction, every step keeps the concrete invariant and
either leaves the abstraction alone or is an abstract step. -/
structure Simulation (step : State → Label → Option State) (Local : State → Prop)
    (view : State → Abstract) (move : Abstract → Abstract → Prop)
    (Global : Abstract → Prop) : Prop where
  simulates : ∀ state label next, Local state → Global (view state) →
    step state label = some next →
      Local next ∧ (view next = view state ∨ move (view state) (view next))
  preserves : ∀ before after, Global before → move before after → Global after

variable {Local : State → Prop} {view : State → Abstract}
  {move : Abstract → Abstract → Prop} {Global : Abstract → Prop}

/-- Both invariants of a simulation hold in every reachable state. -/
theorem Simulation.invariant (simulation : Simulation step Local view move Global)
    (concrete : Local start) (abstract : Global (view start))
    (reached : Reaches step start finish) : Local finish ∧ Global (view finish) := by
  refine reached.invariant (motive := fun state => Local state ∧ Global (view state))
    ⟨concrete, abstract⟩ ?_
  rintro state label next ⟨here, above⟩ _ moved
  obtain ⟨kept, same | moves⟩ := simulation.simulates state label next here above moved
  · exact ⟨kept, same ▸ above⟩
  · exact ⟨kept, simulation.preserves _ _ above moves⟩

/-- Along a simulation every run of the program is a run of the abstract
relation. -/
theorem Simulation.reflTransGen (simulation : Simulation step Local view move Global)
    (concrete : Local start) (abstract : Global (view start))
    (reached : Reaches step start finish) :
    Relation.ReflTransGen move (view start) (view finish) := by
  induction reached with
  | start => exact .refl
  | @step state next label before _ moved ih =>
      obtain ⟨here, above⟩ := simulation.invariant concrete abstract before
      obtain ⟨_, same | moves⟩ := simulation.simulates state label next here above moved
      · exact same ▸ ih
      · exact ih.tail moves

end Transition
