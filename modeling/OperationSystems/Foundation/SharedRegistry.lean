import Mathlib.Algebra.BigOperators.Group.Finset.Piecewise
import Mathlib.Algebra.BigOperators.Ring.Finset
import Mathlib.Data.Fintype.Card
import Mathlib.Data.Set.Function
import Mathlib.Data.Set.Insert
import Mathlib.Logic.Function.Basic
import OperationSystems.Foundation.Tally

/-!
# A registry of shared objects with one producer each

Agents look objects up by key in a registry guarded by one lock. The agent that
finds no object of its key lists a new one and becomes its producer; the others
join as readers. An object is counted by its holders; the producer marks it
complete or failed before it gives it up, and the agent that drops the last
reference keeps it listed when it is complete and not failed, and otherwise
unlists and frees it.

`Move` is one atomic act of one agent and `Sound` the invariant that carries the
protocol: counts are exact, held objects are listed, keys are not listed twice,
an object has at most one producer, an unmarked object still has its producer,
and an unheld listed object is a good one. Nothing here fixes what agents,
objects and keys are.
-/

namespace SharedRegistry

/-- What an agent is to an object. `inspecting` and `retiring` are inside the
registry lock: the first has found a listed object, the second has dropped the
last reference and decides. A `quitter` is a producer that will only mark its
object failed; `settled` is a producer that has marked it. -/
inductive Role (Object : Type*)
  | idle
  | inspecting (object : Object)
  | reader (object : Object)
  | producer (object : Object)
  | quitter (object : Object)
  | settled (object : Object)
  | retiring (object : Object)
  | reclaiming (object : Object)
  deriving DecidableEq

/-- A listed object: its key, its reference count and its two marks. -/
structure Item (Key : Type*) where
  key : Key
  count : Int
  complete : Bool
  failed : Bool

namespace Role

variable {Object : Type*}

/-- The object an agent holds a counted reference to. -/
def held : Role Object → Option Object
  | idle | inspecting _ | retiring _ | reclaiming _ => none
  | reader object | producer object | quitter object | settled object => some object

/-- The object an agent has created and not yet given up. -/
def writes : Role Object → Option Object
  | idle | inspecting _ | reader _ | retiring _ | reclaiming _ => none
  | producer object | quitter object | settled object => some object

/-- The object an agent deals with inside the registry lock. -/
def inside : Role Object → Option Object
  | idle | reader _ | producer _ | quitter _ | settled _ | reclaiming _ => none
  | inspecting object | retiring object => some object

section Values

variable (object : Object)

@[simp] theorem held_idle : (idle : Role Object).held = none := rfl
@[simp] theorem held_inspecting : (inspecting object).held = none := rfl
@[simp] theorem held_reader : (reader object).held = some object := rfl
@[simp] theorem held_producer : (producer object).held = some object := rfl
@[simp] theorem held_quitter : (quitter object).held = some object := rfl
@[simp] theorem held_settled : (settled object).held = some object := rfl
@[simp] theorem held_retiring : (retiring object).held = none := rfl
@[simp] theorem held_reclaiming : (reclaiming object).held = none := rfl
@[simp] theorem inside_idle : (idle : Role Object).inside = none := rfl
@[simp] theorem inside_inspecting : (inspecting object).inside = some object := rfl
@[simp] theorem inside_reader : (reader object).inside = none := rfl
@[simp] theorem inside_producer : (producer object).inside = none := rfl
@[simp] theorem inside_quitter : (quitter object).inside = none := rfl
@[simp] theorem inside_settled : (settled object).inside = none := rfl
@[simp] theorem inside_retiring : (retiring object).inside = some object := rfl
@[simp] theorem inside_reclaiming : (reclaiming object).inside = none := rfl

end Values

/-- A producer holds its object. -/
theorem held_of_writes {role : Role Object} {object : Object}
    (writes : role.writes = some object) : role.held = some object := by
  cases role with
  | producer one => exact writes
  | quitter one => exact writes
  | settled one => exact writes
  | _ => cases writes

end Role

/-- The items by object, the objects that lookups can find, and the roles. -/
structure State (Agent Object Key : Type*) where
  item : Object → Option (Item Key)
  listed : Set Object
  role : Agent → Role Object

namespace State

variable {Agent Object Key : Type*} (state : State Agent Object Key)

/-- The key under which an object is registered. -/
def keyOf (object : Object) : Option Key := (state.item object).map Item.key

/-- No agent is inside the registry lock. -/
def Quiet : Prop := ∀ agent, (state.role agent).inside = none

def assign [DecidableEq Agent] (agent : Agent) (role : Role Object) : State Agent Object Key :=
  { state with role := Function.update state.role agent role }

def store [DecidableEq Object] (object : Object) (item : Item Key) : State Agent Object Key :=
  { state with item := Function.update state.item object (some item) }

variable {state}

theorem assign_self [DecidableEq Agent] (agent : Agent) :
    state.assign agent (state.role agent) = state := by
  simp [assign]

theorem store_self [DecidableEq Object] {object : Object} {item : Item Key}
    (found : state.item object = some item) : state.store object item = state := by
  simp [store, ← found]

theorem item_store_self [DecidableEq Object] (object : Object) (item : Item Key) :
    (state.store object item).item object = some item := Function.update_self ..

theorem item_store_of_ne [DecidableEq Object] {object other : Object} (item : Item Key)
    (apart : other ≠ object) : (state.store object item).item other = state.item other :=
  Function.update_of_ne apart ..

/-- What has a key is stored. -/
theorem item_eq_some_of_keyOf {object : Object} {key : Key}
    (known : state.keyOf object = some key) :
    ∃ item, state.item object = some item := by
  obtain ⟨item, found, _⟩ := Option.map_eq_some_iff.mp known
  exact ⟨item, found⟩

/-- Storing an item of the same key changes no key. -/
theorem keyOf_store [DecidableEq Object] {object : Object} {old item : Item Key}
    (found : state.item object = some old) (same : item.key = old.key) :
    (state.store object item).keyOf = state.keyOf := by
  funext other
  by_cases equal : other = object
  · subst equal
    simp [keyOf, store, found, same]
  · simp [keyOf, store, equal]

end State

open State

section Census

variable {Agent Value : Type*} [Fintype Agent] [DecidableEq Value]

/-- The number of agents whose value is `wanted`. -/
def census (value : Agent → Value) (wanted : Value) : Int :=
  (Finset.univ.filter fun agent => value agent = wanted).card

/-- The census is the total of the agents' weights, 1 for the wanted value and else 0. -/
theorem census_eq_tally (value : Agent → Value) (wanted : Value) :
    census value wanted =
      Tally.tally (fun held => if held = wanted then (1 : Int) else 0) value := by
  rw [census, Finset.card_filter, Nat.cast_sum, Tally.tally]
  simp only [Nat.cast_ite, Nat.cast_one, Nat.cast_zero]

/-- One agent's change moves the census by what it gains and what it loses. -/
theorem census_update [DecidableEq Agent] (value : Agent → Value) (agent : Agent)
    (now wanted : Value) :
    census (Function.update value agent now) wanted =
      census value wanted + (if now = wanted then 1 else 0) -
        (if value agent = wanted then 1 else 0) := by
  have moved := Tally.tally_update (fun held => if held = wanted then (1 : Int) else 0) value
    agent now
  rw [census_eq_tally, census_eq_tally]
  exact eq_sub_of_add_eq moved

theorem census_nonneg (value : Agent → Value) (wanted : Value) : 0 ≤ census value wanted :=
  Int.natCast_nonneg _

/-- Somebody is counted exactly where there is somebody. -/
theorem census_pos_iff (value : Agent → Value) (wanted : Value) :
    0 < census value wanted ↔ ∃ agent, value agent = wanted := by
  rw [census, Int.natCast_pos, Finset.card_pos]
  simp [Finset.Nonempty]

end Census

variable {Agent Object Key : Type*}

/-- One atomic act of one agent. -/
inductive Move [DecidableEq Agent] [DecidableEq Object] :
    State Agent Object Key → State Agent Object Key → Prop
  | create {state : State Agent Object Key} (agent : Agent) (object : Object) (key : Key) :
      state.role agent = .idle → state.item object = none → state.Quiet →
      (∀ other ∈ state.listed, state.keyOf other ≠ some key) →
      Move state { (state.store object ⟨key, 1, false, false⟩).assign agent (.producer object)
        with listed := insert object state.listed }
  | inspect {state : State Agent Object Key} (agent : Agent) (object : Object) :
      state.role agent = .idle → object ∈ state.listed → state.Quiet →
      Move state (state.assign agent (.inspecting object))
  | join {state : State Agent Object Key} (agent : Agent) (object : Object) (item : Item Key) :
      state.role agent = .inspecting object → state.item object = some item →
      Move state ((state.store object { item with count := item.count + 1 }).assign agent
        (.reader object))
  | spoil {state : State Agent Object Key} (agent : Agent) (object : Object) (item : Item Key) :
      state.role agent = .producer object → state.item object = some item →
      Move state ((state.store object { item with failed := true }).assign agent
        (.quitter object))
  | quit {state : State Agent Object Key} (agent : Agent) (object : Object) :
      state.role agent = .producer object →
      Move state (state.assign agent (.quitter object))
  | complete {state : State Agent Object Key} (agent : Agent) (object : Object)
      (item : Item Key) : state.role agent = .producer object → state.item object = some item →
      Move state ((state.store object { item with complete := true }).assign agent
        (.settled object))
  | fail {state : State Agent Object Key} (agent : Agent) (object : Object) (item : Item Key) :
      state.role agent = .quitter object → state.item object = some item →
      Move state ((state.store object { item with failed := true }).assign agent
        (.settled object))
  | leave {state : State Agent Object Key} (agent : Agent) (object : Object) (item : Item Key) :
      state.role agent = .reader object ∨ state.role agent = .settled object →
      state.item object = some item → 0 < item.count - 1 →
      Move state ((state.store object { item with count := item.count - 1 }).assign agent .idle)
  | retire {state : State Agent Object Key} (agent : Agent) (object : Object)
      (item : Item Key) :
      state.role agent = .reader object ∨ state.role agent = .settled object →
      state.item object = some item → ¬ 0 < item.count - 1 → state.Quiet →
      Move state ((state.store object { item with count := item.count - 1 }).assign agent
        (.retiring object))
  | keep {state : State Agent Object Key} (agent : Agent) (object : Object) (item : Item Key) :
      state.role agent = .retiring object → state.item object = some item →
      item.complete = true → item.failed = false →
      Move state (state.assign agent .idle)
  | unlist {state : State Agent Object Key} (agent : Agent) (object : Object)
      (item : Item Key) : state.role agent = .retiring object →
      state.item object = some item → (item.complete = false ∨ item.failed = true) →
      Move state { state.assign agent (.reclaiming object) with
        listed := state.listed \ {object} }
  | free {state : State Agent Object Key} (agent : Agent) (object : Object) :
      state.role agent = .reclaiming object →
      Move state { state.assign agent .idle with
        item := Function.update state.item object none }

/-- Who and what is listed: held and inspected objects are, an unlisted object is
one that its last holder is about to free, and no key is listed twice. -/
structure Listing (state : State Agent Object Key) : Prop where
  listed_item : ∀ object ∈ state.listed, ∃ item, state.item object = some item
  item_place : ∀ object item, state.item object = some item →
    object ∈ state.listed ∨ ∃ agent, state.role agent = .reclaiming object
  reclaiming_out : ∀ agent object, state.role agent = .reclaiming object →
    object ∉ state.listed ∧ ∃ item, state.item object = some item
  reclaiming_unique : ∀ first second object, state.role first = .reclaiming object →
    state.role second = .reclaiming object → first = second
  held_listed : ∀ agent object, (state.role agent).held = some object → object ∈ state.listed
  inside_listed : ∀ agent object, (state.role agent).inside = some object →
    object ∈ state.listed
  exclusive : ∀ first second, (state.role first).inside ≠ none →
    (state.role second).inside ≠ none → first = second
  key_injective : Set.InjOn state.keyOf state.listed

/-- An object is counted by its holders. -/
def Counted [Fintype Agent] [DecidableEq Object] (state : State Agent Object Key) : Prop :=
  ∀ object item, state.item object = some item →
    item.count = census (fun agent => (state.role agent).held) (some object)

/-- The marks follow the one producer: unmarked while it works, exactly one mark
once it has settled. -/
structure Marking (state : State Agent Object Key) : Prop where
  writer_unique : ∀ first second object, (state.role first).writes = some object →
    (state.role second).writes = some object → first = second
  producer_clean : ∀ agent object item, state.role agent = .producer object →
    state.item object = some item → item.complete = false ∧ item.failed = false
  quitter_clean : ∀ agent object item, state.role agent = .quitter object →
    state.item object = some item → item.complete = false
  settled_marked : ∀ agent object item, state.role agent = .settled object →
    state.item object = some item → item.complete = true ∨ item.failed = true
  not_both : ∀ object item, state.item object = some item →
    item.complete = false ∨ item.failed = false
  pending : ∀ object item, state.item object = some item → item.complete = false →
    item.failed = false →
      ∃ agent, state.role agent = .producer object ∨ state.role agent = .quitter object

/-- An object that nobody holds is being decided on or is a good one. -/
structure Resting (state : State Agent Object Key) : Prop where
  retiring_zero : ∀ agent object item, state.role agent = .retiring object →
    state.item object = some item → item.count = 0
  idle_good : ∀ object ∈ state.listed, ∀ item, state.item object = some item →
    item.count = 0 →
      (∃ agent, state.role agent = .retiring object) ∨
        (item.complete = true ∧ item.failed = false)

/-- The invariant of the registry. -/
structure Sound [Fintype Agent] [DecidableEq Object] (state : State Agent Object Key) : Prop where
  listing : Listing state
  counted : Counted state
  marking : Marking state
  resting : Resting state

variable {state after : State Agent Object Key}

/-! ## What the invariant gives -/

namespace Sound

variable [Fintype Agent] [DecidableEq Object]

/-- Nothing is registered and nobody does anything. -/
theorem initial : Sound (⟨fun _ => none, ∅, fun _ => .idle⟩ : State Agent Object Key) :=
  ⟨by constructor <;> simp, by simp [Counted],
    by constructor <;> simp [Role.writes], by constructor <;> simp⟩

/-- Nobody holds an object whose last reference has been dropped. -/
theorem unheld (sound : Sound state) (agent : Agent) (object : Object)
    (retiring : state.role agent = .retiring object) (other : Agent) :
    (state.role other).held ≠ some object := by
  intro holds
  obtain ⟨item, found⟩ := sound.listing.listed_item object
    (sound.listing.held_listed other object holds)
  have zero := sound.resting.retiring_zero agent object item retiring found
  have positive : 0 < item.count := by
    rw [sound.counted object item found]
    exact (census_pos_iff _ _).mpr ⟨other, holds⟩
  omega

/-- **Single flight.** Two producers of one key are one agent. -/
theorem writers_apart (sound : Sound state) {first second : Agent} {one two : Object}
    (writes : (state.role first).writes = some one)
    (also : (state.role second).writes = some two) (same : state.keyOf one = state.keyOf two) :
    first = second := by
  have equal : one = two := sound.listing.key_injective
    (sound.listing.held_listed first one (Role.held_of_writes writes))
    (sound.listing.held_listed second two (Role.held_of_writes also)) same
  exact sound.marking.writer_unique first second one writes (equal ▸ also)

/-- An object about to be freed is allocated, unlisted and held by nobody. -/
theorem reclaiming_free (sound : Sound state) {agent : Agent} {object : Object}
    (reclaiming : state.role agent = .reclaiming object) :
    (∃ item, state.item object = some item) ∧ object ∉ state.listed ∧
      ∀ other, (state.role other).held ≠ some object := by
  obtain ⟨out, present⟩ := sound.listing.reclaiming_out agent object reclaiming
  exact ⟨present, out, fun other holds => out (sound.listing.held_listed other object holds)⟩

/-- With the lock free, an unheld listed object is complete and not failed. -/
theorem resting_good (sound : Sound state) (quiet : state.Quiet) {object : Object}
    {item : Item Key} (member : object ∈ state.listed) (found : state.item object = some item)
    (zero : item.count = 0) : item.complete = true ∧ item.failed = false := by
  rcases sound.resting.idle_good object member item found zero with ⟨agent, retiring⟩ | good
  · simpa [retiring] using quiet agent
  · exact good

/-- An object that is found unheld in the registry is complete and not failed. -/
theorem inspected_good (sound : Sound state) {agent : Agent} {object : Object} {item : Item Key}
    (inspecting : state.role agent = .inspecting object) (found : state.item object = some item)
    (zero : item.count = 0) : item.complete = true ∧ item.failed = false := by
  have member := sound.listing.inside_listed agent object (by rw [inspecting]; rfl)
  rcases sound.resting.idle_good object member item found zero with ⟨other, retiring⟩ | good
  · have same := sound.listing.exclusive agent other (by simp [inspecting]) (by simp [retiring])
    subst same
    rw [inspecting] at retiring
    cases retiring
  · exact good

end Sound

/-! ## An agent takes another part -/

/-- The marks that fit what an agent is to their object. -/
private def Role.Fits (item : Item Key) : Role Object → Prop
  | .producer _ => item.complete = false ∧ item.failed = false
  | .quitter _ => item.complete = false
  | .settled _ => item.complete = true ∨ item.failed = true
  | _ => True

private theorem Role.Fits.of_marks {role : Role Object} {old item : Item Key} (fits : role.Fits old)
    (complete : item.complete = old.complete) (failed : item.failed = old.failed) :
    role.Fits item := by
  cases role with
  | producer other => exact ⟨complete.trans fits.1, failed.trans fits.2⟩
  | quitter other => exact complete.trans fits
  | settled other => exact fits.imp complete.trans failed.trans
  | _ => trivial

/-- The marks fit whoever works on an object. -/
private theorem Marking.fits (marking : Marking state) {agent : Agent} {object : Object}
    {item : Item Key} (writes : (state.role agent).writes = some object)
    (found : state.item object = some item) : (state.role agent).Fits item := by
  cases was : state.role agent with
  | producer other =>
      rw [was] at writes
      obtain rfl := Option.some.inj writes
      exact marking.producer_clean agent other item was found
  | quitter other =>
      rw [was] at writes
      obtain rfl := Option.some.inj writes
      exact marking.quitter_clean agent other item was found
  | settled other =>
      rw [was] at writes
      obtain rfl := Option.some.inj writes
      exact marking.settled_marked agent other item was found
  | _ => trivial

/-- Marks that fit everybody, and one producer for each object. -/
private theorem Marking.of_fits
    (unique : ∀ first second object, (after.role first).writes = some object →
      (after.role second).writes = some object → first = second)
    (fits : ∀ agent object item, (after.role agent).writes = some object →
      after.item object = some item → (after.role agent).Fits item)
    (both : ∀ object item, after.item object = some item →
      item.complete = false ∨ item.failed = false)
    (pending : ∀ object item, after.item object = some item → item.complete = false →
      item.failed = false →
        ∃ agent, after.role agent = .producer object ∨ after.role agent = .quitter object) :
    Marking after := by
  refine ⟨unique, fun agent object item was found => ?_, fun agent object item was found => ?_,
    fun agent object item was found => ?_, both, pending⟩
  · have fit := fits agent object item (by rw [was]; rfl) found
    rwa [was] at fit
  · have fit := fits agent object item (by rw [was]; rfl) found
    rwa [was] at fit
  · have fit := fits agent object item (by rw [was]; rfl) found
    rwa [was] at fit

variable [DecidableEq Agent]

/-- An agent that neither lists nor unlists keeps the listing, if what it now
holds or inspects is listed and it entered the lock while nobody was inside. -/
private theorem Listing.reassign (listing : Listing state) {agent : Agent} {role : Role Object}
    (roles : after.role = Function.update state.role agent role)
    (listed : after.listed = state.listed) (keys : after.keyOf = state.keyOf)
    (was : ∀ object, state.role agent ≠ .reclaiming object)
    (now : ∀ object, role ≠ .reclaiming object)
    (held : ∀ object, role.held = some object → object ∈ state.listed)
    (inside : ∀ object, role.inside = some object → object ∈ state.listed)
    (entered : role.inside ≠ none → (state.role agent).inside ≠ none ∨ state.Quiet) :
    Listing after := by
  obtain ⟨items, place, out, only, holds, within, exclusive, injective⟩ := listing
  have known : ∀ object, (∃ item, after.item object = some item) ↔
      ∃ item, state.item object = some item := by
    intro object
    have same := congrFun keys object
    constructor <;> rintro ⟨item, found⟩ <;>
      exact item_eq_some_of_keyOf (by simp_all [keyOf] : _ = some item.key)
  refine ⟨?_, ?_, ?_, ?_, ?_, ?_, ?_, by rw [keys, listed]; exact injective⟩ <;>
    simp only [roles, listed, Function.update_apply]
  · exact fun object member => (known object).mpr (items object member)
  · intro object item found
    obtain ⟨before, found⟩ := (known object).mp ⟨item, found⟩
    rcases place object before found with member | ⟨other, reclaims⟩
    · exact .inl member
    · have apart : other ≠ agent := by
        rintro rfl
        exact was object reclaims
      exact .inr ⟨other, by rw [if_neg apart]; exact reclaims⟩
  · intro other object reclaims
    split at reclaims
    · exact absurd reclaims (now object)
    · exact ⟨(out other object reclaims).1, (known object).mpr (out other object reclaims).2⟩
  · grind
  · grind
  · grind
  · grind [State.Quiet]

/-- An agent that is not at work on an object takes another part and leaves the marks
alone. -/
private theorem Marking.withdraw (marking : Marking state) {agent : Agent} {role : Role Object}
    (roles : after.role = Function.update state.role agent role) (writes : role.writes = none)
    (was : ∀ object, state.role agent ≠ .producer object ∧ state.role agent ≠ .quitter object)
    (marks : ∀ object item, after.item object = some item →
      ∃ old, state.item object = some old ∧ item.complete = old.complete ∧
        item.failed = old.failed) : Marking after := by
  have rest : ∀ other, other ≠ agent → after.role other = state.role other := by
    intro other apart
    rw [roles, Function.update_of_ne apart]
  have back : ∀ other object, (after.role other).writes = some object →
      after.role other = state.role other := by
    intro other object works
    apply rest other
    rintro rfl
    rw [roles, Function.update_self, writes] at works
    cases works
  refine .of_fits (fun first second object one two => ?_) (fun other object item works found => ?_)
    (fun object item found => ?_) fun object item found complete failed => ?_
  · exact marking.writer_unique first second object (back first object one ▸ one)
      (back second object two ▸ two)
  · obtain ⟨old, before, complete, failed⟩ := marks object item found
    have same := back other object works
    rw [same]
    exact (marking.fits (same ▸ works) before).of_marks complete failed
  · obtain ⟨old, before, complete, failed⟩ := marks object item found
    rw [complete, failed]
    exact marking.not_both object old before
  · obtain ⟨old, before, same, also⟩ := marks object item found
    obtain ⟨other, works⟩ := marking.pending object old before (same ▸ complete) (also ▸ failed)
    have apart : other ≠ agent := by
      rintro rfl
      exact works.elim (was object).1 (was object).2
    exact ⟨other, by rwa [rest other apart]⟩

/-- An act of an agent that neither was nor is deciding, on an object that nobody is
deciding on, if it leaves the unheld objects alone. -/
private theorem Resting.bystand (resting : Resting state) {agent : Agent} {role : Role Object}
    (roles : after.role = Function.update state.role agent role)
    (was : ∀ object, state.role agent ≠ .retiring object) (now : ∀ object, role ≠ .retiring object)
    (decided : ∀ other object, state.role other = .retiring object →
      ∀ item, after.item object = some item → state.item object = some item)
    (unheld : ∀ object ∈ after.listed, ∀ item, after.item object = some item → item.count = 0 →
      object ∈ state.listed ∧ state.item object = some item) : Resting after := by
  have rest : ∀ other, other ≠ agent → after.role other = state.role other := by
    intro other apart
    rw [roles, Function.update_of_ne apart]
  refine ⟨fun other object item deciding found => ?_, fun object member item found zero => ?_⟩
  · have apart : other ≠ agent := by
      rintro rfl
      rw [roles, Function.update_self] at deciding
      exact now object deciding
    rw [rest other apart] at deciding
    exact resting.retiring_zero other object item deciding
      (decided other object deciding item found)
  · obtain ⟨before, same⟩ := unheld object member item found zero
    rcases resting.idle_good object before item same zero with ⟨other, deciding⟩ | good
    · have apart : other ≠ agent := by
        rintro rfl
        exact was object deciding
      exact .inl ⟨other, by rwa [rest other apart]⟩
    · exact .inr good

/-- The only agent that decides decides on its object: what stays listed is good. -/
private theorem Resting.settle (resting : Resting state) {agent : Agent} {object : Object}
    {role : Role Object} (was : state.role agent = .retiring object)
    (alone : ∀ other one, state.role other = .retiring one → other = agent)
    (roles : after.role = Function.update state.role agent role)
    (now : ∀ other, role ≠ .retiring other) (items : after.item = state.item)
    (listed : after.listed ⊆ state.listed)
    (good : object ∈ after.listed → ∀ item, state.item object = some item →
      item.complete = true ∧ item.failed = false) : Resting after := by
  have nobody : ∀ other one, after.role other ≠ .retiring one := by
    intro other one deciding
    rw [roles] at deciding
    by_cases same : other = agent
    · subst same
      rw [Function.update_self] at deciding
      exact now one deciding
    · rw [Function.update_of_ne same] at deciding
      exact same (alone other one deciding)
  refine ⟨fun other one item deciding => absurd deciding (nobody other one),
    fun one member item found zero => ?_⟩
  rw [items] at found
  rcases resting.idle_good one (listed member) item found zero with ⟨other, deciding⟩ | kept
  · obtain rfl := alone other one deciding
    obtain rfl := Role.retiring.inj (was.symm.trans deciding)
    exact .inr (good member item found)
  · exact .inr kept

/-- Nobody begins to produce where the agent that moves produces at most what it did. -/
theorem no_new_writer_of_update {mover agent : Agent} {role : Role Object} {object : Object}
    (kept : ∀ one, role.writes = some one → (state.role mover).writes = some one)
    (before : (state.role agent).writes = none)
    (writes : (Function.update state.role mover role agent).writes = some object) : False := by
  have already : (state.role agent).writes = some object := by
    by_cases same : agent = mover
    · subst same
      rw [Function.update_self] at writes
      exact kept object writes
    · rwa [Function.update_of_ne same] at writes
  rw [before] at already
  cases already

/-! ## Every act -/

variable [DecidableEq Object]

/-- **The step lemma** of the listing. -/
theorem Listing.move (listing : Listing state)
    (unheld : ∀ agent object, state.role agent = .retiring object →
      ∀ other, (state.role other).held ≠ some object)
    (move : Move state after) : Listing after := by
  cases move with
  | create agent object key idle fresh quiet unlisted =>
      have absent : object ∉ state.listed := fun member => by
        obtain ⟨item, found⟩ := listing.listed_item object member
        exact absurd (fresh.symm.trans found) (by simp)
      have others : ∀ other ∈ state.listed, other ≠ object := by
        rintro other member rfl
        exact absent member
      obtain ⟨items, place, out, only, held, inside, exclusive, injective⟩ := listing
      refine ⟨?_, ?_, ?_, ?_, ?_, ?_, ?_, ?_⟩
      · rintro other (rfl | member)
        · exact ⟨_, Function.update_self _ _ _⟩
        · simp only [assign, store, Function.update_of_ne (others other member)]
          exact items other member
      · simp only [assign, store, Function.update_apply]; grind
      · simp only [assign, store, Function.update_apply]; grind
      · simp only [assign, store, Function.update_apply]; grind
      · simp only [assign, store, Function.update_apply]; grind [Role.held]
      · simp only [assign, store, Function.update_apply]; grind [Role.inside]
      · simp only [assign, store, Function.update_apply]; grind [Role.inside]
      · -- the new key is nobody else's, and the others keep theirs
        have kept : ∀ other ∈ state.listed, ({ (state.store object ⟨key, 1, false, false⟩).assign
            agent (.producer object) with listed := insert object state.listed } :
              State Agent Object Key).keyOf other = state.keyOf other := by
          intro other member
          simp [keyOf, assign, store, others other member]
        refine (Set.injOn_insert absent).mpr ⟨injective.congr fun other member =>
          (kept other member).symm, ?_⟩
        rintro ⟨other, member, same⟩
        rw [kept other member] at same
        exact unlisted other member (same.trans (by simp [keyOf, assign, store]))
  | inspect agent object idle member quiet =>
      exact listing.reassign rfl rfl rfl (by simp [idle]) (by simp) (by simp)
        (by simpa using member) (fun _ => .inr quiet)
  | join agent object item inspecting found =>
      have member := listing.inside_listed agent object (by rw [inspecting]; rfl)
      exact listing.reassign rfl rfl (keyOf_store found rfl) (by simp [inspecting]) (by simp)
        (by simpa using member) (by simp) (by simp)
  | spoil agent object item producing found =>
      have member := listing.held_listed agent object (by rw [producing]; rfl)
      exact listing.reassign rfl rfl (keyOf_store found rfl) (by simp [producing]) (by simp)
        (by simpa using member) (by simp) (by simp)
  | quit agent object producing =>
      have member := listing.held_listed agent object (by rw [producing]; rfl)
      exact listing.reassign rfl rfl rfl (by simp [producing]) (by simp)
        (by simpa using member) (by simp) (by simp)
  | complete agent object item producing found =>
      have member := listing.held_listed agent object (by rw [producing]; rfl)
      exact listing.reassign rfl rfl (keyOf_store found rfl) (by simp [producing]) (by simp)
        (by simpa using member) (by simp) (by simp)
  | fail agent object item quitting found =>
      have member := listing.held_listed agent object (by rw [quitting]; rfl)
      exact listing.reassign rfl rfl (keyOf_store found rfl) (by simp [quitting]) (by simp)
        (by simpa using member) (by simp) (by simp)
  | leave agent object item holding found many =>
      exact listing.reassign rfl rfl (keyOf_store found rfl)
        (by rcases holding with was | was <;> simp [was]) (by simp) (by simp)
        (by simp) (by simp)
  | retire agent object item holding found last quiet =>
      have member := listing.held_listed agent object
        (by rcases holding with was | was <;> rw [was] <;> rfl)
      exact listing.reassign rfl rfl (keyOf_store found rfl)
        (by rcases holding with was | was <;> simp [was]) (by simp) (by simp)
        (by simpa using member) (fun _ => .inr quiet)
  | keep agent object item retiring found complete sound =>
      exact listing.reassign rfl rfl rfl (by simp [retiring]) (by simp) (by simp)
        (by simp) (by simp)
  | unlist agent object item retiring found bad =>
      -- nobody holds it any more, and nobody else is inside the lock inspecting it
      have alone := unheld agent object retiring
      have member := listing.inside_listed agent object (by rw [retiring]; rfl)
      obtain ⟨items, place, out, only, held, inside, exclusive, injective⟩ := listing
      refine ⟨?_, ?_, ?_, ?_, ?_, ?_, ?_, injective.mono Set.sdiff_subset⟩ <;>
        simp only [assign, Function.update_apply, Set.mem_sdiff, Set.mem_singleton_iff]
      · grind
      · grind
      · grind
      · grind
      · grind [Role.held]
      · grind [Role.inside]
      · grind [Role.inside]
  | free agent object reclaiming =>
      have absent := (listing.reclaiming_out agent object reclaiming).1
      obtain ⟨items, place, out, only, held, inside, exclusive, injective⟩ := listing
      refine ⟨?_, ?_, ?_, ?_, ?_, ?_, ?_, injective.congr fun other member => ?_⟩
      · simp only [assign, Function.update_apply]; grind
      · simp only [assign, Function.update_apply]; grind
      · simp only [assign, Function.update_apply]; grind
      · simp only [assign, Function.update_apply]; grind
      · simp only [assign, Function.update_apply]; grind [Role.held]
      · simp only [assign, Function.update_apply]; grind [Role.inside]
      · simp only [assign, Function.update_apply]; grind [Role.inside]
      · have apart : other ≠ object := fun same => absent (same ▸ member)
        simp [keyOf, apart]

/-- The only producer of an object, or a new one, goes on with marks that fit. -/
private theorem Marking.proceed (marking : Marking state) {agent : Agent} {object : Object}
    {role : Role Object} {item : Item Key}
    (roles : after.role = Function.update state.role agent role)
    (items : after.item = Function.update state.item object (some item))
    (was : ∀ other, (state.role agent).writes = some other → other = object)
    (alone : ∀ other, (state.role other).writes = some object → other = agent)
    (writes : role.writes = some object) (fits : role.Fits item)
    (both : item.complete = false ∨ item.failed = false) : Marking after := by
  have self : after.role agent = role := by rw [roles, Function.update_self]
  have rest : ∀ other, other ≠ agent → after.role other = state.role other := by
    intro other apart
    rw [roles, Function.update_of_ne apart]
  have here : after.item object = some item := by rw [items, Function.update_self]
  have apart : ∀ other, other ≠ object → after.item other = state.item other := by
    intro other apart
    rw [items, Function.update_of_ne apart]
  have mine : ∀ other, (after.role other).writes = some object → other = agent := by
    intro other works
    by_contra away
    rw [rest other away] at works
    exact away (alone other works)
  have theirs : ∀ other one, one ≠ object → (after.role other).writes = some one →
      after.role other = state.role other := by
    intro other one away works
    apply rest other
    rintro rfl
    rw [self, writes] at works
    exact away (Option.some.inj works).symm
  refine .of_fits (fun first second one works also => ?_) (fun other one it works found => ?_)
    (fun one it found => ?_) fun one it found complete failed => ?_
  · by_cases same : one = object
    · subst same
      exact (mine first works).trans (mine second also).symm
    · exact marking.writer_unique first second one (theirs first one same works ▸ works)
        (theirs second one same also ▸ also)
  · by_cases same : one = object
    · subst same
      obtain rfl := mine other works
      obtain rfl := Option.some.inj (here.symm.trans found)
      exact self ▸ fits
    · have stays := theirs other one same works
      rw [stays]
      exact marking.fits (stays ▸ works) ((apart one same).symm.trans found)
  · by_cases same : one = object
    · subst same
      exact Option.some.inj (here.symm.trans found) ▸ both
    · exact marking.not_both one it ((apart one same).symm.trans found)
  · by_cases same : one = object
    · subst same
      obtain rfl := Option.some.inj (here.symm.trans found)
      refine ⟨agent, ?_⟩
      rw [self]
      cases role with
      | producer other => exact .inl (congrArg Role.producer (Option.some.inj writes))
      | quitter other => exact .inr (congrArg Role.quitter (Option.some.inj writes))
      | settled other =>
          rcases fits with done | bad
          · exact absurd (done.symm.trans complete) (by decide)
          · exact absurd (bad.symm.trans failed) (by decide)
      | _ => cases writes
    · obtain ⟨other, works⟩ :=
        marking.pending one it ((apart one same).symm.trans found) complete failed
      have away : other ≠ agent := by
        rintro rfl
        exact same (was one (by rcases works with place | place <;> rw [place] <;> rfl))
      exact ⟨other, by rwa [rest other away]⟩

/-- **The step lemma** of the marks. -/
theorem Marking.move (marking : Marking state) (listing : Listing state)
    (move : Move state after) : Marking after := by
  -- the producer of an object is its only one and works on no other
  have sole : ∀ {agent : Agent} {object : Object}, (state.role agent).writes = some object →
      (∀ other, (state.role agent).writes = some other → other = object) ∧
        ∀ other, (state.role other).writes = some object → other = agent :=
    fun {agent object} works => ⟨fun _ also => Option.some.inj (also.symm.trans works),
      fun other also => marking.writer_unique other agent object also works⟩
  have stored : ∀ {object : Object} {old item : Item Key}, state.item object = some old →
      item.complete = old.complete → item.failed = old.failed → ∀ other it,
        Function.update state.item object (some item) other = some it →
          ∃ old, state.item other = some old ∧ it.complete = old.complete ∧
            it.failed = old.failed := by
    intro object old item found complete failed other it there
    by_cases same : other = object
    · subst same
      rw [Function.update_self] at there
      exact ⟨old, found, Option.some.inj there ▸ complete, Option.some.inj there ▸ failed⟩
    · rw [Function.update_of_ne same] at there
      exact ⟨it, there, rfl, rfl⟩
  cases move with
  | create agent object key idle fresh quiet unlisted =>
      have free : ∀ other, (state.role other).writes ≠ some object := by
        intro other writes
        have holds := listing.held_listed other object (Role.held_of_writes writes)
        obtain ⟨item, found⟩ := listing.listed_item _ holds
        exact absurd (fresh.symm.trans found) (by simp)
      exact marking.proceed rfl rfl (fun other works => by simp [idle, Role.writes] at works)
        (fun other works => absurd works (free other)) rfl ⟨rfl, rfl⟩ (.inl rfl)
  | inspect agent object idle member quiet =>
      exact marking.withdraw rfl rfl (by simp [idle]) fun _ it there => ⟨it, there, rfl, rfl⟩
  | join agent object item inspecting found =>
      exact marking.withdraw rfl rfl (by simp [inspecting]) (stored found rfl rfl)
  | spoil agent object item producing found =>
      obtain ⟨was, alone⟩ := sole (by rw [producing]; rfl : (state.role agent).writes = some object)
      have clean := marking.producer_clean agent object item producing found
      exact marking.proceed rfl rfl was alone rfl clean.1 (.inl clean.1)
  | quit agent object producing =>
      obtain ⟨was, alone⟩ := sole (by rw [producing]; rfl : (state.role agent).writes = some object)
      obtain ⟨item, found⟩ := listing.listed_item object
        (listing.held_listed agent object (by rw [producing]; rfl))
      have clean := marking.producer_clean agent object item producing found
      have same : state.item = Function.update state.item object (some item) := by
        rw [← found, Function.update_eq_self]
      exact marking.proceed rfl same was alone rfl clean.1 (.inl clean.1)
  | complete agent object item producing found =>
      obtain ⟨was, alone⟩ := sole (by rw [producing]; rfl : (state.role agent).writes = some object)
      have clean := marking.producer_clean agent object item producing found
      exact marking.proceed rfl rfl was alone rfl (.inl rfl) (.inr clean.2)
  | fail agent object item quitting found =>
      obtain ⟨was, alone⟩ := sole (by rw [quitting]; rfl : (state.role agent).writes = some object)
      have clean := marking.quitter_clean agent object item quitting found
      exact marking.proceed rfl rfl was alone rfl (.inr rfl) (.inl clean)
  | leave agent object item holding found many =>
      exact marking.withdraw rfl rfl (by rcases holding with was | was <;> simp [was])
        (stored found rfl rfl)
  | retire agent object item holding found last quiet =>
      exact marking.withdraw rfl rfl (by rcases holding with was | was <;> simp [was])
        (stored found rfl rfl)
  | keep agent object item retiring found complete sound =>
      exact marking.withdraw rfl rfl (by simp [retiring]) fun _ it there => ⟨it, there, rfl, rfl⟩
  | unlist agent object item retiring found bad =>
      exact marking.withdraw rfl rfl (by simp [retiring]) fun _ it there => ⟨it, there, rfl, rfl⟩
  | free agent object reclaiming =>
      refine marking.withdraw rfl rfl (by simp [reclaiming]) fun other it there => ?_
      by_cases same : other = object
      · subst same
        simp at there
      · exact ⟨it, by simpa [assign, same] using there, rfl, rfl⟩

/-- Giving an object a new count that is not zero touches no unheld object. -/
private theorem Resting.restock (resting : Resting state) {agent : Agent} {object : Object}
    {role : Role Object} {item : Item Key}
    (was : ∀ other, state.role agent ≠ .retiring other) (now : ∀ other, role ≠ .retiring other)
    (calm : ∀ other, state.role other ≠ .retiring object) (counts : item.count ≠ 0) :
    Resting ((state.store object item).assign agent role) := by
  have stored : ∀ other it, ((state.store object item).assign agent role).item other = some it →
      other ≠ object → state.item other = some it := by
    intro other it found apart
    exact (item_store_of_ne item apart).symm.trans found
  refine resting.bystand rfl was now (fun other one deciding it found => ?_)
    fun one member it found zero => ?_
  · apply stored one it found
    rintro rfl
    exact calm other deciding
  · refine ⟨member, stored one it found ?_⟩
    rintro rfl
    obtain rfl := Option.some.inj ((item_store_self one item).symm.trans found)
    exact counts zero

/-- An agent becomes a producer only of an object whose key was not listed. -/
theorem Move.new_writer {agent : Agent} {object : Object} (moved : Move state after)
    (before : (state.role agent).writes = none)
    (writes : (after.role agent).writes = some object) :
    ∃ key, after.keyOf object = some key ∧
      ∀ other ∈ state.listed, state.keyOf other ≠ some key := by
  cases moved with
  | create mover fresh key idle absent quiet unlisted =>
      by_cases same : agent = mover
      · subst same
        refine ⟨key, ?_, unlisted⟩
        simp only [assign, store, Function.update_self, Role.writes, Option.some.injEq] at writes
        subst writes
        simp [keyOf, store, assign]
      · simp [assign, store, same, before] at writes
  -- in the other moves the role is no producer's, or the agent produced the object before
  | inspect mover other idle member quiet =>
      exact (no_new_writer_of_update (fun _ works => by cases works) before writes).elim
  | join mover other old inspecting here =>
      exact (no_new_writer_of_update (fun _ works => by cases works) before writes).elim
  | spoil mover other old producing here =>
      exact (no_new_writer_of_update (fun _ works => by rw [producing]; exact works) before
        writes).elim
  | quit mover other producing =>
      exact (no_new_writer_of_update (fun _ works => by rw [producing]; exact works) before
        writes).elim
  | complete mover other old producing here =>
      exact (no_new_writer_of_update (fun _ works => by rw [producing]; exact works) before
        writes).elim
  | fail mover other old quitting here =>
      exact (no_new_writer_of_update (fun _ works => by rw [quitting]; exact works) before
        writes).elim
  | leave mover other old holding here many =>
      exact (no_new_writer_of_update (fun _ works => by cases works) before writes).elim
  | retire mover other old holding here last quiet =>
      exact (no_new_writer_of_update (fun _ works => by cases works) before writes).elim
  | keep mover other old retiring here done clean =>
      exact (no_new_writer_of_update (fun _ works => by cases works) before writes).elim
  | unlist mover other old retiring here bad =>
      exact (no_new_writer_of_update (fun _ works => by cases works) before writes).elim
  | free mover other reclaiming =>
      exact (no_new_writer_of_update (fun _ works => by cases works) before writes).elim

/-- The object is listed under the key, complete and not failed. -/
def Good (state : State Agent Object Key) (object : Object) (key : Key) : Prop :=
  object ∈ state.listed ∧ ∃ item, state.item object = some item ∧ item.key = key ∧
    item.complete = true ∧ item.failed = false

/-- While an object of a key is good, nobody becomes a producer of that key. -/
theorem Good.no_new_writer {object other : Object} {key : Key} {agent : Agent}
    (good : Good state object key) (moved : Move state after)
    (before : (state.role agent).writes = none)
    (writes : (after.role agent).writes = some other) : after.keyOf other ≠ some key := by
  intro same
  obtain ⟨named, known, unlisted⟩ := moved.new_writer before writes
  obtain ⟨member, item, found, keyed, _⟩ := good
  apply unlisted object member
  rw [State.keyOf, found, Option.map_some, keyed]
  exact same.symm.trans known

/-! ## Counting -/

variable [Fintype Agent]

/-- Storing an item of another count and changing its agent's role keeps every
count right when the count moves by what the role gains and loses. -/
private theorem Counted.reassign (counted : Counted state) {agent : Agent} {role : Role Object}
    {object : Object} {item : Item Key}
    (was : (state.role agent).held = none ∨ (state.role agent).held = some object)
    (now : role.held = none ∨ role.held = some object)
    (moved : item.count = census (fun who => (state.role who).held) (some object) +
      (if role.held = some object then 1 else 0) -
      (if (state.role agent).held = some object then 1 else 0)) :
    Counted ((state.store object item).assign agent role) := by
  have roles : (fun who => (((state.store object item).assign agent role).role who).held) =
      Function.update (fun who => (state.role who).held) agent role.held := by
    funext who
    by_cases same : who = agent
    · subst same; simp [assign]
    · simp [assign, store, same]
  intro other stored present
  rw [roles, census_update]
  by_cases same : other = object
  · subst same
    have equal : item = stored := by simpa [assign, store] using present
    rw [← equal, moved]
  · have before : state.item other = some stored := by
      simpa [assign, store, same] using present
    have apart : ∀ held : Option Object, held = none ∨ held = some object →
        held ≠ some other := by
      rintro held (rfl | rfl) equal
      · cases equal
      · exact same (Option.some.inj equal).symm
    rw [if_neg (apart _ now), if_neg (apart _ was), counted other stored before]
    omega

/-- A role that holds what the agent held keeps every count right. -/
private theorem Counted.rerole (counted : Counted state) {agent : Agent} {role : Role Object}
    (roles : after.role = Function.update state.role agent role)
    (same : role.held = (state.role agent).held)
    (items : ∀ object item, after.item object = some item → state.item object = some item) :
    Counted after := by
  have holds : (fun who => (after.role who).held) = fun who => (state.role who).held := by
    funext who
    by_cases equal : who = agent
    · subst equal; simp [roles, same]
    · simp [roles, equal]
  intro object item found
  rw [holds]
  exact counted object item (items object item found)

/-- **The step lemma** of the counts. -/
theorem Counted.move (counted : Counted state) (listing : Listing state)
    (move : Move state after) : Counted after := by
  cases move with
  | create agent object key idle fresh quiet unlisted =>
      have nobody : census (fun who => (state.role who).held) (some object) = 0 := by
        refine le_antisymm (not_lt.mp fun positive => ?_) (census_nonneg _ _)
        obtain ⟨holder, holds⟩ := (census_pos_iff _ _).mp positive
        obtain ⟨item, found⟩ := listing.listed_item _ (listing.held_listed holder object holds)
        exact absurd (fresh.symm.trans found) (by simp)
      exact counted.reassign (by simp [idle]) (by simp) (by simp [nobody, idle])
  | inspect agent object idle member quiet =>
      exact counted.rerole rfl (by simp [idle]) fun _ _ found => found
  | join agent object item inspecting found =>
      exact counted.reassign (by simp [inspecting]) (by simp)
        (by simp [← counted object item found, inspecting])
  | spoil agent object item producing found =>
      exact counted.reassign (by simp [producing]) (by simp)
        (by simp [← counted object item found, producing])
  | quit agent object producing =>
      exact counted.rerole rfl (by simp [producing]) fun _ _ found => found
  | complete agent object item producing found =>
      exact counted.reassign (by simp [producing]) (by simp)
        (by simp [← counted object item found, producing])
  | fail agent object item quitting found =>
      exact counted.reassign (by simp [quitting]) (by simp)
        (by simp [← counted object item found, quitting])
  | leave agent object item holding found many =>
      have holds : (state.role agent).held = some object := by
        rcases holding with was | was <;> rw [was] <;> rfl
      exact counted.reassign (.inr holds) (by simp)
        (by simp [← counted object item found, holds])
  | retire agent object item holding found last quiet =>
      have holds : (state.role agent).held = some object := by
        rcases holding with was | was <;> rw [was] <;> rfl
      exact counted.reassign (.inr holds) (by simp)
        (by simp [← counted object item found, holds])
  | keep agent object item retiring found complete sound =>
      exact counted.rerole rfl (by simp [retiring]) fun _ _ found => found
  | unlist agent object item retiring found bad =>
      exact counted.rerole rfl (by simp [retiring]) fun _ _ found => found
  | free agent object reclaiming =>
      have same : (Role.idle : Role Object).held = (state.role agent).held := by simp [reclaiming]
      apply counted.rerole rfl same
      intro other item found
      by_cases same : other = object
      · subst same; simp at found
      · simpa [assign, same] using found

/-! ## Resting -/

/-- **The step lemma** of the unheld objects. -/
theorem Resting.move (resting : Resting state) (listing : Listing state)
    (counted : Counted state) (move : Move state after) : Resting after := by
  have positive : ∀ agent object item, (state.role agent).held = some object →
      state.item object = some item → 0 < item.count := by
    intro agent object item holds found
    rw [counted object item found]
    exact (census_pos_iff _ _).mpr ⟨agent, holds⟩
  -- nobody decides on an object that is held, or is looked at by somebody else
  have calm : ∀ agent object, (state.role agent).held = some object →
      ∀ other, state.role other ≠ .retiring object := by
    intro agent object holds other deciding
    obtain ⟨item, found⟩ := listing.listed_item object (listing.held_listed agent object holds)
    have zero := resting.retiring_zero other object item deciding found
    have held := positive agent object item holds found
    omega
  have alone : ∀ agent, (state.role agent).inside ≠ none →
      ∀ other object, state.role other = .retiring object → other = agent := by
    intro agent inside other object deciding
    exact listing.exclusive other agent (by simp [deciding]) inside
  have deserted : state.Quiet → ∀ other object, state.role other ≠ .retiring object := by
    intro quiet other object deciding
    simpa [deciding] using quiet other
  cases move with
  | create agent object key idle fresh quiet unlisted =>
      refine resting.bystand rfl (by simp [idle]) (by simp)
        (fun other one deciding => absurd deciding (deserted quiet other one)) ?_
      intro one member item found zero
      by_cases same : one = object
      · subst same
        obtain rfl := Option.some.inj ((item_store_self one _).symm.trans found)
        exact absurd zero one_ne_zero
      · exact ⟨Set.mem_of_mem_insert_of_ne member same, (item_store_of_ne _ same).symm.trans found⟩
  | inspect agent object idle member quiet =>
      exact resting.bystand rfl (by simp [idle]) (by simp) (fun _ _ _ _ found => found)
        fun _ member _ found _ => ⟨member, found⟩
  | join agent object item inspecting found =>
      refine resting.restock (by simp [inspecting]) (by simp) (fun other deciding => ?_) ?_
      · obtain rfl := alone agent (by simp [inspecting]) other object deciding
        simp [inspecting] at deciding
      · change item.count + 1 ≠ 0
        have nonneg := census_nonneg (fun agent => (state.role agent).held) (some object)
        rw [← counted object item found] at nonneg
        omega
  | spoil agent object item producing found =>
      have holds : (state.role agent).held = some object := by simp [producing]
      exact resting.restock (by simp [producing]) (by simp) (calm agent object holds)
        (positive agent object item holds found).ne'
  | quit agent object producing =>
      exact resting.bystand rfl (by simp [producing]) (by simp) (fun _ _ _ _ found => found)
        fun _ member _ found _ => ⟨member, found⟩
  | complete agent object item producing found =>
      have holds : (state.role agent).held = some object := by simp [producing]
      exact resting.restock (by simp [producing]) (by simp) (calm agent object holds)
        (positive agent object item holds found).ne'
  | fail agent object item quitting found =>
      have holds : (state.role agent).held = some object := by simp [quitting]
      exact resting.restock (by simp [quitting]) (by simp) (calm agent object holds)
        (positive agent object item holds found).ne'
  | leave agent object item holding found many =>
      have holds : (state.role agent).held = some object := by
        rcases holding with was | was <;> simp [was]
      exact resting.restock (by rcases holding with was | was <;> simp [was]) (by simp)
        (calm agent object holds) many.ne'
  | retire agent object item holding found last quiet =>
      have holds : (state.role agent).held = some object := by
        rcases holding with was | was <;> simp [was]
      have one := positive agent object item holds found
      have self : ((state.store object { item with count := item.count - 1 }).assign agent
          (.retiring object)).role agent = .retiring object := Function.update_self ..
      refine ⟨fun other one it deciding there => ?_, fun one member it there zero => ?_⟩
      · by_cases same : other = agent
        · subst same
          obtain rfl := Role.retiring.inj (self.symm.trans deciding)
          obtain rfl := Option.some.inj ((item_store_self object _).symm.trans there)
          change item.count - 1 = 0
          omega
        · exact absurd ((Function.update_of_ne same ..).symm.trans deciding)
            (deserted quiet other one)
      · by_cases same : one = object
        · subst same
          exact .inl ⟨agent, self⟩
        · have before : state.item one = some it := (item_store_of_ne _ same).symm.trans there
          rcases resting.idle_good one member it before zero with ⟨other, deciding⟩ | good
          · exact absurd deciding (deserted quiet other one)
          · exact .inr good
  | keep agent object item retiring found complete sound =>
      refine resting.settle retiring (alone agent (by simp [retiring])) rfl (by simp) rfl
        subset_rfl fun _ it there => ?_
      obtain rfl := Option.some.inj (found.symm.trans there)
      exact ⟨complete, sound⟩
  | unlist agent object item retiring found bad =>
      exact resting.settle retiring (alone agent (by simp [retiring])) rfl (by simp) rfl
        Set.sdiff_subset fun member => absurd rfl member.2
  | free agent object reclaiming =>
      have kept : ∀ one it, Function.update state.item object none one = some it →
          state.item one = some it := by
        intro one it there
        by_cases same : one = object
        · subst same
          simp at there
        · simpa [same] using there
      exact resting.bystand rfl (by simp [reclaiming]) (by simp)
        (fun _ one _ it there => kept one it there)
        fun one member it there _ => ⟨member, kept one it there⟩

/-! ## The invariant -/

/-- **The step lemma.** Every act keeps the registry sound. -/
theorem Sound.move (sound : Sound state) (moved : Move state after) : Sound after :=
  ⟨sound.listing.move sound.unheld moved, sound.counted.move sound.listing moved,
    sound.marking.move sound.listing moved,
    sound.resting.move sound.listing sound.counted moved⟩

/-- A good object stays good: nobody marks or unlists it. -/
theorem Good.move {object : Object} {key : Key} (good : Good state object key)
    (sound : Sound state) (moved : Move state after) : Good after object key := by
  obtain ⟨member, item, found, named, complete, sane⟩ := good
  have stored : ∀ other (next : Item Key), (∀ old, state.item other = some old →
      object = other → next.key = old.key ∧ next.complete = true ∧ next.failed = false) →
      ∃ kept, Function.update state.item other (some next) object = some kept ∧
        kept.key = key ∧ kept.complete = true ∧ kept.failed = false := by
    intro other next keeps
    by_cases same : object = other
    · subst same
      obtain ⟨keyed, done, clean⟩ := keeps item found rfl
      exact ⟨next, Function.update_self _ _ _, keyed.trans named, done, clean⟩
    · exact ⟨item, by rw [Function.update_of_ne same]; exact found, named, complete, sane⟩
  have pending := sound.marking
  cases moved with
  | create agent fresh _ idle absent quiet unlisted =>
      exact ⟨Set.mem_insert_of_mem _ member, stored fresh _ fun old here _ =>
        absurd (absent.symm.trans here) (by simp)⟩
  | inspect agent other idle listed quiet => exact ⟨member, item, found, named, complete, sane⟩
  | join agent other old inspecting here =>
      exact ⟨member, stored other _ fun before was same => by grind⟩
  | spoil agent other old producing here =>
      exact ⟨member, stored other _ fun before was same => by
        grind [pending.producer_clean agent other old producing here]⟩
  | quit agent other producing => exact ⟨member, item, found, named, complete, sane⟩
  | complete agent other old producing here =>
      exact ⟨member, stored other _ fun before was same => by grind⟩
  | fail agent other old quitting here =>
      exact ⟨member, stored other _ fun before was same => by
        grind [pending.quitter_clean agent other old quitting here]⟩
  | leave agent other old holding here many =>
      exact ⟨member, stored other _ fun before was same => by grind⟩
  | retire agent other old holding here last quiet =>
      exact ⟨member, stored other _ fun before was same => by grind⟩
  | keep agent other old retiring here done clean =>
      exact ⟨member, item, found, named, complete, sane⟩
  | unlist agent other old retiring here bad =>
      have apart : object ≠ other := by
        rintro rfl
        grind
      exact ⟨⟨member, apart⟩, item, found, named, complete, sane⟩
  | free agent other reclaiming =>
      have apart : object ≠ other := by
        rintro rfl
        exact (sound.listing.reclaiming_out agent object reclaiming).1 member
      exact ⟨member, item, (Function.update_of_ne apart _ _).trans found, named, complete, sane⟩

end SharedRegistry
