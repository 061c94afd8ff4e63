import Mathlib.Logic.Function.Iterate
import OperationSystems.Foundation.Tally

/-!
# A lock word and the value it guards

Agents that take a word from `free` to something else, read a value, write back
the changed value, and set the word free again. Agents outside may exchange the
word for another value while it is taken, but never free it. `Sound` says that the
word is free exactly while nobody is inside, that at most one agent is, and that
no write is lost: the value is the initial one changed as often as agents have
written.
-/

namespace LockedWord

/-- Where an agent is: outside, or inside before its read, between its read and
its write with what it has read, or behind its write. -/
inductive Phase (Data : Type*)
  | outside
  | inside
  | read (seen : Data)
  | written

/-- The word, the value, where the agents are, and how often each has written. -/
structure State (Agent Word Data : Type*) where
  word : Word
  data : Data
  phase : Agent → Phase Data
  rounds : Agent → ℕ

variable {Agent Word Data : Type*}

/-- One atomic act of one agent. -/
inductive Move [DecidableEq Agent] (free : Word) (change : Data → Data) :
    State Agent Word Data → State Agent Word Data → Prop
  | enter {state : State Agent Word Data} (agent : Agent) (taken : Word) :
      state.phase agent = .outside → state.word = free → taken ≠ free →
      Move free change state
        { state with word := taken, phase := Function.update state.phase agent .inside }
  | mark {state : State Agent Word Data} (other : Word) :
      state.word ≠ free → other ≠ free → Move free change state { state with word := other }
  | read {state : State Agent Word Data} (agent : Agent) :
      state.phase agent = .inside →
      Move free change state
        { state with phase := Function.update state.phase agent (.read state.data) }
  | write {state : State Agent Word Data} (agent : Agent) (seen : Data) :
      state.phase agent = .read seen →
      Move free change state
        { state with
          data := change seen
          phase := Function.update state.phase agent .written
          rounds := Function.update state.rounds agent (state.rounds agent + 1) }
  | leave {state : State Agent Word Data} (agent : Agent) :
      state.phase agent = .written →
      Move free change state
        { state with word := free, phase := Function.update state.phase agent .outside }

variable [Fintype Agent]

/-- The invariant of the lock and of the value. -/
structure Sound (free : Word) (change : Data → Data) (initial : Data)
    (state : State Agent Word Data) : Prop where
  free_iff : state.word = free ↔ ∀ agent, state.phase agent = .outside
  alone : ∀ first second, state.phase first ≠ .outside → state.phase second ≠ .outside →
    first = second
  fresh : ∀ agent seen, state.phase agent = .read seen → seen = state.data
  counted : state.data = change^[Tally.tally id state.rounds] initial

variable {free : Word} {change : Data → Data} {initial : Data} {state next : State Agent Word Data}

/-- Nobody is inside but one agent, if that one is. -/
theorem Sound.of_sole (agent : Agent) (others : ∀ other ≠ agent, state.phase other = .outside)
    (word : state.word = free ↔ state.phase agent = .outside)
    (fresh : ∀ seen, state.phase agent = .read seen → seen = state.data)
    (counted : state.data = change^[Tally.tally id state.rounds] initial) :
    Sound free change initial state := by
  have only : ∀ other, state.phase other ≠ .outside → other = agent := by
    intro other inside
    by_contra apart
    exact inside (others other apart)
  refine ⟨word.trans ⟨fun out other => ?_, fun all => all agent⟩, ?_, ?_, counted⟩
  · by_cases self : other = agent
    · exact self ▸ out
    · exact others other self
  · intro first second one two
    rw [only first one, only second two]
  · intro other seen reads
    obtain rfl := only other (by rw [reads]; simp)
    exact fresh seen reads

/-- Before anyone was inside. -/
theorem Sound.start (out : ∀ agent, state.phase agent = .outside) (word : state.word = free)
    (data : state.data = initial) (none : ∀ agent, state.rounds agent = 0) :
    Sound free change initial state where
  free_iff := ⟨fun _ => out, fun _ => word⟩
  alone := fun first _ inside => absurd (out first) inside
  fresh := fun agent seen reads => by
    rw [out agent] at reads
    cases reads
  counted := by
    have nothing : Tally.tally id state.rounds = 0 := Tally.tally_eq_zero none
    rw [nothing]
    exact data

/-- Nobody else is inside with an agent that is. -/
theorem Sound.others (sound : Sound free change initial state) {agent : Agent}
    (inside : state.phase agent ≠ .outside) {other : Agent} (apart : other ≠ agent) :
    state.phase other = .outside := by
  by_contra also
  exact apart (sound.alone other agent also inside)

/-- Who is inside keeps the word taken. -/
theorem Sound.taken (sound : Sound free change initial state) {agent : Agent}
    (inside : state.phase agent ≠ .outside) : state.word ≠ free :=
  fun word => inside (sound.free_iff.mp word agent)

/-- **The step lemma.** Every act keeps the invariant. -/
theorem Sound.move [DecidableEq Agent] (sound : Sound free change initial state)
    (moved : Move free change state next) : Sound free change initial next := by
  have elsewhere : ∀ {agent other : Agent} {phase : Phase Data}, other ≠ agent →
      state.phase other = .outside → Function.update state.phase agent phase other = .outside := by
    intro agent other phase apart out
    rw [Function.update_of_ne apart, out]
  cases moved with
  | enter agent taken out word used =>
      have nobody := sound.free_iff.mp word
      refine .of_sole agent (fun other apart => elsewhere apart (nobody other)) ?_ ?_
        sound.counted
      · simp [used]
      · simp
  | mark other taken used =>
      refine ⟨⟨fun same => absurd same used, fun all => ?_⟩, sound.alone, sound.fresh,
        sound.counted⟩
      exact absurd (sound.free_iff.mpr all) taken
  | read agent inside =>
      have there : state.phase agent ≠ .outside := by
        rw [inside]
        simp
      refine .of_sole agent
        (fun other apart => elsewhere apart (sound.others there apart)) ?_ ?_ sound.counted
      · simp [sound.taken there]
      · simp
  | write agent seen reads =>
      have there : state.phase agent ≠ .outside := by
        rw [reads]
        simp
      have more := Tally.tally_update id state.rounds agent (state.rounds agent + 1)
      have total : Tally.tally id (Function.update state.rounds agent (state.rounds agent + 1)) =
          Tally.tally id state.rounds + 1 := by
        simp only [id_eq] at more
        omega
      refine .of_sole agent
        (fun other apart => elsewhere apart (sound.others there apart)) ?_ ?_ ?_
      · simp [sound.taken there]
      · simp
      · change change seen = _
        rw [total, Function.iterate_succ_apply', ← sound.counted, sound.fresh agent seen reads]
  | leave agent written =>
      have there : state.phase agent ≠ .outside := by
        rw [written]
        simp
      refine .of_sole agent
        (fun other apart => elsewhere apart (sound.others there apart)) ?_ ?_ sound.counted
      · simp
      · simp

end LockedWord
