import Mathlib.Algebra.Order.BigOperators.Group.Finset
import Mathlib.Data.Fintype.EquivFin
import OperationSystems.Foundation.Tally
import OperationSystems.Foundation.Transition

/-!
# Threads that count under no lock

`run_test` with `worker_race`: every thread repeats `counter++`, a load and a store of the
volatile counter, and nothing keeps another thread from storing in between. Each of two or
more threads that count twice or more can lose nearly all of what the others count, but the
last store is of a value that somebody has counted before: exactly the values from 2 to the
number of all increments are possible in the end.
-/

namespace OperationSystems.Sync

/-- Where a thread is in the loop of `worker_race`. -/
inductive RacePoint
  | head
  | loadCounter
  | storeCounter (seen : ℕ)
  | finished
  deriving DecidableEq

/-- A thread in `worker_race`: its loop variable and where it is. -/
structure Racer where
  round : ℕ
  point : RacePoint
  deriving DecidableEq

/-- `counter` and the threads. -/
structure Race (ι : Type*) where
  counter : ℕ
  thread : ι → Racer

namespace Race

variable {ι : Type*}

/-- `run_test` behind the creation of the threads. -/
def start (ι : Type*) : Race ι := { counter := 0, thread := fun _ => ⟨0, .head⟩ }

variable [DecidableEq ι]

/-- A thread moves on. -/
def goto (w : Race ι) (i : ι) (racer : Racer) : Race ι :=
  { w with thread := Function.update w.thread i racer }

/-- One step of a thread that runs `iters` times. -/
def step (iters : ℕ) (w : Race ι) (i : ι) : Option (Race ι) :=
  match (w.thread i).point with
  | .head => some (w.goto i { w.thread i with
      point := if (w.thread i).round < iters then .loadCounter else .finished })
  | .loadCounter => some (w.goto i { w.thread i with point := .storeCounter w.counter })
  | .storeCounter seen => some
      { w.goto i ⟨(w.thread i).round + 1, .head⟩ with counter := seen + 1 }
  | .finished => none

/-- Behind the joins of `run_test`. -/
def Finished (w : Race ι) : Prop := ∀ i, (w.thread i).point = .finished

variable {iters : ℕ} {w next : Race ι} {i : ι}

/-! ## What is in the counter -/

/-- Where a thread is in its rounds, and what it has loaded. -/
def Paced (iters : ℕ) (racer : Racer) : Prop :=
  match racer.point with
  | .head => racer.round ≤ iters
  | .finished => racer.round = iters
  | _ => racer.round < iters

/-- Who has counted once finds the counter above 0 from then on, and the counter is above 1
when all have counted twice: the last of them has loaded its own count or a later one. -/
structure Kept [Fintype ι] (iters : ℕ) (w : Race ι) : Prop where
  paced : ∀ i, Paced iters (w.thread i)
  counted : ∀ i, 1 ≤ (w.thread i).round → 1 ≤ w.counter
  loaded : ∀ i seen, (w.thread i).point = .storeCounter seen → 1 ≤ (w.thread i).round → 1 ≤ seen
  twice : (∀ i, 2 ≤ (w.thread i).round) → 2 ≤ w.counter
  most : w.counter ≤ ∑ i, (w.thread i).round
  most_loaded : ∀ i seen, (w.thread i).point = .storeCounter seen →
    seen ≤ ∑ j, (w.thread j).round

section Bounds

variable [Fintype ι]

omit [DecidableEq ι] in
theorem Kept.start [Nonempty ι] : (Race.start ι).Kept iters where
  paced := fun _ => Nat.zero_le _
  counted := fun _ once => absurd once (by simp [Race.start])
  loaded := fun _ _ there => by cases there
  twice := fun all => absurd (all (Classical.arbitrary ι)) (by simp [Race.start])
  most := Nat.zero_le _
  most_loaded := fun _ _ there => by cases there

/-- A step that counts nothing. -/
theorem Kept.turn (kept : w.Kept iters) {point : RacePoint}
    (paced : Paced iters ⟨(w.thread i).round, point⟩)
    (loads : ∀ seen, point = .storeCounter seen → seen = w.counter) :
    (w.goto i ⟨(w.thread i).round, point⟩).Kept iters := by
  have rounds : ∀ j, ((w.goto i ⟨(w.thread i).round, point⟩).thread j).round =
      (w.thread j).round := by
    intro j
    by_cases same : j = i
    · subst same
      simp [goto]
    · simp [goto, same]
  have seen_cases : ∀ j seen, ((w.goto i ⟨(w.thread i).round, point⟩).thread j).point =
      .storeCounter seen → seen = w.counter ∨ (w.thread j).point = .storeCounter seen := by
    intro j seen there
    by_cases same : j = i
    · subst same
      exact .inl (loads seen (by simpa [goto] using there))
    · exact .inr (by simpa [goto, same] using there)
  constructor
  · intro j
    by_cases same : j = i
    · subst same
      simpa [goto] using paced
    · simpa [goto, same] using kept.paced j
  · intro j once
    rw [rounds] at once
    exact kept.counted j once
  · intro j seen there once
    rw [rounds] at once
    rcases seen_cases j seen there with rfl | before
    · exact kept.counted j once
    · exact kept.loaded j seen before once
  · intro all
    exact kept.twice fun j => rounds j ▸ all j
  · simp only [rounds]
    exact kept.most
  · intro j seen there
    simp only [rounds]
    rcases seen_cases j seen there with rfl | before
    · exact kept.most
    · exact kept.most_loaded j seen before

/-- A store counts one round, and may undo the counting of others. -/
theorem Kept.store (kept : w.Kept iters) {seen : ℕ}
    (place : (w.thread i).point = .storeCounter seen) :
    Kept iters { w.goto i ⟨(w.thread i).round + 1, .head⟩ with counter := seen + 1 } := by
  have more : ∑ j, (Function.update w.thread i ⟨(w.thread i).round + 1, .head⟩ j).round =
      ∑ j, (w.thread j).round + 1 := by
    have turn := Tally.tally_update Racer.round w.thread i ⟨(w.thread i).round + 1, .head⟩
    unfold Tally.tally at turn
    dsimp only at turn
    omega
  have bound := kept.most_loaded i seen place
  constructor
  · intro j
    by_cases same : j = i
    · subst same
      have paced := kept.paced j
      unfold Paced at paced
      rw [place] at paced
      simpa [goto, Paced] using Nat.succ_le_of_lt paced
    · simpa [goto, same] using kept.paced j
  · intro _ _
    exact Nat.succ_pos seen
  · intro j other there once
    by_cases same : j = i
    · subst same
      simp [goto] at there
    · simp only [goto, Function.update_of_ne same] at there once
      exact kept.loaded j other there once
  · intro all
    have own := all i
    simp only [goto, Function.update_self] at own
    have before := kept.loaded i seen place (by omega)
    dsimp only
    omega
  · change seen + 1 ≤ ∑ j, (Function.update w.thread i _ j).round
    rw [more]
    omega
  · intro j other there
    change other ≤ ∑ k, (Function.update w.thread i _ k).round
    rw [more]
    by_cases same : j = i
    · subst same
      simp [goto] at there
    · simp only [goto, Function.update_of_ne same] at there
      exact (kept.most_loaded j other there).trans (Nat.le_succ _)

theorem Kept.step (kept : w.Kept iters) (stepped : w.step iters i = some next) :
    next.Kept iters := by
  unfold Race.step at stepped
  have paced := kept.paced i
  unfold Paced at paced
  cases place : (w.thread i).point with
  | head =>
      rw [place] at stepped paced
      obtain rfl := Option.some.inj stepped
      split_ifs with more
      · exact kept.turn (by simpa [Paced] using more) (by simp)
      · have ends : (w.thread i).round = iters := le_antisymm paced (not_lt.mp more)
        exact kept.turn (by simpa [Paced] using ends) (by simp)
  | loadCounter =>
      rw [place] at stepped paced
      obtain rfl := Option.some.inj stepped
      exact kept.turn (by simpa [Paced] using paced) (by simp)
  | storeCounter seen =>
      rw [place] at stepped
      obtain rfl := Option.some.inj stepped
      exact kept.store place
  | finished =>
      rw [place] at stepped
      cases stepped

theorem reached_kept [Nonempty ι] (reached : Transition.Reaches (step iters) (start ι) w) :
    w.Kept iters :=
  reached.invariant .start fun _ _ _ kept _ stepped => kept.step stepped

omit [DecidableEq ι] in
/-- Every thread has counted all its rounds. -/
theorem Kept.round_of_finished (kept : w.Kept iters) (ended : w.Finished) (i : ι) :
    (w.thread i).round = iters := by
  have paced := kept.paced i
  unfold Paced at paced
  rw [ended i] at paced
  exact paced

end Bounds

/-! ## What the counter can become -/

/-- A thread at its loop head loads the counter. -/
theorem reaches_load (place : (w.thread i).point = .head) (more : (w.thread i).round < iters) :
    Transition.Reaches (step iters) w
      (w.goto i ⟨(w.thread i).round, .storeCounter w.counter⟩) := by
  have tests : w.step iters i = some (w.goto i ⟨(w.thread i).round, .loadCounter⟩) := by
    simp [step, place, more]
  have loads : (w.goto i ⟨(w.thread i).round, .loadCounter⟩).step iters i =
      some (w.goto i ⟨(w.thread i).round, .storeCounter w.counter⟩) := by
    simp [step, goto]
  exact (Transition.Reaches.next .start i tests).next i loads

/-- A thread stores what it has loaded and one more. -/
theorem reaches_store {seen : ℕ} (place : (w.thread i).point = .storeCounter seen) :
    Transition.Reaches (step iters) w
      { w.goto i ⟨(w.thread i).round + 1, .head⟩ with counter := seen + 1 } :=
  .next .start i (by simp [step, place])

/-- A thread that is not disturbed counts one. -/
theorem reaches_round (place : (w.thread i).point = .head) (more : (w.thread i).round < iters) :
    Transition.Reaches (step iters) w
      { w.goto i ⟨(w.thread i).round + 1, .head⟩ with counter := w.counter + 1 } := by
  have stored : ((w.goto i ⟨(w.thread i).round, .storeCounter w.counter⟩).thread i).point =
      .storeCounter w.counter := by simp [goto]
  have behind := (reaches_load place more).trans (reaches_store stored)
  simpa [goto] using behind

/-- How often the threads of a group have counted. -/
def total (w : Race ι) (group : Finset ι) : ℕ := ∑ i ∈ group, (w.thread i).round

/-- The threads of a group are at their loop heads. -/
def AtHead (w : Race ι) (group : Finset ι) : Prop := ∀ i ∈ group, (w.thread i).point = .head

/-- A group that is not disturbed counts as often as it still can, or less. -/
theorem exists_rounds (group : Finset ι) (heads : w.AtHead group) (m : ℕ)
    (room : w.total group + m ≤ group.card * iters) :
    ∃ w', Transition.Reaches (step iters) w w' ∧ w'.counter = w.counter + m ∧
      w'.AtHead group ∧ w'.total group = w.total group + m ∧
        ∀ i, i ∉ group → w'.thread i = w.thread i := by
  induction m with
  | zero => exact ⟨w, .start, rfl, heads, rfl, fun _ _ => rfl⟩
  | succ m ih =>
      obtain ⟨v, ran, counter, still, total, frame⟩ := ih (by omega)
      obtain ⟨i, member, more⟩ : ∃ i ∈ group, (v.thread i).round < iters := by
        apply Finset.exists_lt_of_sum_lt
        rw [Finset.sum_const_nat fun _ _ => rfl]
        change v.total group < _
        omega
      refine ⟨_, ran.trans (reaches_round (still i member) more), ?_, fun j inside => ?_, ?_,
        fun j out => ?_⟩
      · dsimp only
        omega
      · by_cases same : j = i
        · subst same
          simp [goto]
        · simpa [goto, same] using still j inside
      · have others : ∑ j ∈ group.erase i,
            (Function.update v.thread i ⟨(v.thread i).round + 1, .head⟩ j).round =
              ∑ j ∈ group.erase i, (v.thread j).round := by
          refine Finset.sum_congr rfl fun j inside => ?_
          rw [Function.update_of_ne (Finset.ne_of_mem_erase inside)]
        have before := Finset.add_sum_erase group (fun j => (v.thread j).round) member
        have after := Finset.add_sum_erase group
          (fun j => (Function.update v.thread i ⟨(v.thread i).round + 1, .head⟩ j).round) member
        rw [Function.update_self, others] at after
        change ∑ j ∈ group, (Function.update v.thread i _ j).round = _
        unfold Race.total at total ⊢
        dsimp only at after before
        omega
      · have other : j ≠ i := by
          rintro rfl
          exact out member
        simpa [goto, other] using frame j out

/-- A thread that has not left its loop. -/
def unfinished (racer : Racer) : ℕ :=
  match racer.point with
  | .finished => 0
  | _ => 1

/-- Threads that have counted all their rounds leave their loops. -/
theorem exists_finished [Fintype ι] (heads : w.AtHead Finset.univ)
    (full : ∀ i, (w.thread i).round = iters) :
    ∃ w', Transition.Reaches (step iters) w w' ∧ w'.Finished ∧ w'.counter = w.counter := by
  obtain ⟨final, ran, ⟨same, _⟩, ended⟩ : ∃ v, Transition.Reaches (step iters) w v ∧
      (v.counter = w.counter ∧
        ∀ i, (v.thread i).point = .finished ∨ v.thread i = ⟨iters, .head⟩) ∧ v.Finished :=
    Transition.exists_reaches_of_measure (fun v : Race ι => v.counter = w.counter ∧
      ∀ i, (v.thread i).point = .finished ∨ v.thread i = ⟨iters, .head⟩)
    Finished (fun v => Tally.tally unfinished v.thread) (fun v ⟨same, places⟩ going => by
      obtain ⟨i, going⟩ := not_forall.mp going
      have place := (places i).resolve_left going
      refine ⟨i, v.goto i ⟨iters, .finished⟩, by simp [step, place], ⟨same, fun j => ?_⟩, ?_⟩
      · by_cases self : j = i
        · subst self
          simp [goto]
        · simpa [goto, self] using places j
      · have turn := Tally.tally_update unfinished v.thread i ⟨iters, .finished⟩
        simp only [place, unfinished] at turn
        change Tally.tally _ (Function.update v.thread i _) < _
        omega)
    ⟨rfl, fun i => .inr (by
      have head := heads i (Finset.mem_univ i)
      have round := full i
      cases place : w.thread i
      simp_all)⟩
  exact ⟨final, ran, ended, same⟩

/-- Changing a thread outside a group changes nothing about the group's rounds. -/
theorem sum_update_erase [Fintype ι] (thread : ι → Racer) (i : ι) (racer : Racer) :
    ∑ j, (Function.update thread i racer j).round =
      racer.round + ∑ j ∈ Finset.univ.erase i, (thread j).round := by
  rw [← Finset.add_sum_erase _ _ (Finset.mem_univ i), Function.update_self]
  congr 1
  refine Finset.sum_congr rfl fun j inside => ?_
  rw [Function.update_of_ne (Finset.ne_of_mem_erase inside)]

/-- All that one thread counts can be undone by the store of another one. Then it loads the 1
that was stored. -/
theorem exists_undone {a b : ι} (other : a ≠ b) {lost : ℕ} (enough : lost < iters) :
    ∃ w, Transition.Reaches (step iters) (start ι) w ∧ w.counter = 1 ∧
      w.thread b = ⟨lost, .storeCounter 1⟩ ∧
        ∀ i, i ≠ b → w.thread i = ⟨if i = a then 1 else 0, .head⟩ := by
  have loads : Transition.Reaches (step iters) (start ι)
      ((start ι).goto a ⟨0, .storeCounter 0⟩) := reaches_load rfl (Nat.zero_lt_of_lt enough)
  obtain ⟨s, ran, counter, heads, rounds, frame⟩ : ∃ s, Transition.Reaches (step iters)
      ((start ι).goto a ⟨0, .storeCounter 0⟩) s ∧ s.counter = 0 + lost ∧ s.AtHead {b} ∧
        s.total {b} = total ((start ι).goto a ⟨0, .storeCounter 0⟩) {b} + lost ∧
          ∀ i, i ∉ ({b} : Finset ι) →
            s.thread i = ((start ι).goto a ⟨0, .storeCounter 0⟩).thread i := by
    refine exists_rounds {b} (fun i member => ?_) lost ?_
    · obtain rfl := Finset.mem_singleton.mp member
      simp [goto, other.symm, start]
    · simp only [total, goto, start, Finset.sum_singleton, Finset.card_singleton,
        Function.update_of_ne other.symm]
      omega
  have place : s.thread a = ⟨0, .storeCounter 0⟩ := by
    rw [frame a (by simpa using other)]
    simp [goto]
  have round : (s.thread b).round = lost := by
    simpa [total, goto, start, other.symm] using rounds
  have head : (s.thread b).point = .head := heads b (Finset.mem_singleton_self b)
  have stores : Transition.Reaches (step iters) s { s.goto a ⟨1, .head⟩ with counter := 1 } := by
    have stored : (s.thread a).point = .storeCounter 0 := by rw [place]
    have behind : Transition.Reaches (step iters) s _ := reaches_store stored
    simpa [place] using behind
  have again : Transition.Reaches (step iters) { s.goto a ⟨1, .head⟩ with counter := 1 }
      (goto { s.goto a ⟨1, .head⟩ with counter := 1 } b ⟨lost, .storeCounter 1⟩) := by
    have same : Function.update s.thread a ⟨1, .head⟩ b = s.thread b :=
      Function.update_of_ne other.symm _ _
    have behind : Transition.Reaches (step iters) { s.goto a ⟨1, .head⟩ with counter := 1 } _ :=
      reaches_load (i := b) (by simpa [goto, same] using head)
        (by simpa [goto, same, round] using enough)
    simpa [goto, same, round] using behind
  refine ⟨_, ((loads.trans ran).trans stores).trans again, rfl, by simp [goto], fun i apart => ?_⟩
  by_cases same : i = a
  · subst same
    simp [goto, apart]
  · rw [if_neg same]
    simp only [goto, Function.update_of_ne apart, Function.update_of_ne same]
    rw [frame i (by simpa using apart)]
    simp [goto, same, start]

/-- All that the others count then can be undone by the store of that 1 and one more: `lost`
rounds of one thread and `more` rounds of the others do not count. -/
theorem exists_losing [Fintype ι] {a b : ι} (other : a ≠ b) {lost more : ℕ} (enough : lost < iters)
    (room : 1 + more ≤ (Fintype.card ι - 1) * iters) :
    ∃ w, Transition.Reaches (step iters) (start ι) w ∧ w.counter = 2 ∧
      w.AtHead Finset.univ ∧ w.total Finset.univ = lost + more + 2 := by
  obtain ⟨u, begun, _, loaded, threads⟩ := exists_undone other enough
  have one : u.total (Finset.univ.erase b) = 1 := by
    have member : a ∈ Finset.univ.erase b := Finset.mem_erase.mpr ⟨other, Finset.mem_univ a⟩
    calc u.total (Finset.univ.erase b)
        = ∑ i ∈ Finset.univ.erase b, if i = a then 1 else 0 :=
          Finset.sum_congr rfl fun i inside => by rw [threads i (Finset.ne_of_mem_erase inside)]
      _ = 1 := by rw [Finset.sum_ite_eq', if_pos member]
  obtain ⟨v, went, _, tops, counted, kept⟩ : ∃ v, Transition.Reaches (step iters) u v ∧
      v.counter = u.counter + more ∧ v.AtHead (Finset.univ.erase b) ∧
        v.total (Finset.univ.erase b) = u.total (Finset.univ.erase b) + more ∧
          ∀ i, i ∉ Finset.univ.erase b → v.thread i = u.thread i := by
    refine exists_rounds _ (fun i member => ?_) more ?_
    · rw [threads i (Finset.ne_of_mem_erase member)]
    · rw [one, Finset.card_erase_of_mem (Finset.mem_univ b), Finset.card_univ]
      exact room
  have waits : v.thread b = ⟨lost, .storeCounter 1⟩ := by
    rw [kept b (Finset.notMem_erase b _), loaded]
  have last : Transition.Reaches (step iters) v
      { v.goto b ⟨lost + 1, .head⟩ with counter := 2 } := by
    have stored : (v.thread b).point = .storeCounter 1 := by rw [waits]
    have behind : Transition.Reaches (step iters) v _ := reaches_store stored
    simpa [waits] using behind
  refine ⟨_, (begun.trans went).trans last, rfl, fun i _ => ?_, ?_⟩
  · by_cases same : i = b
    · subst same
      simp [goto]
    · simpa [goto, same] using tops i (Finset.mem_erase.mpr ⟨same, Finset.mem_univ i⟩)
  · change ∑ i, (Function.update v.thread b ⟨lost + 1, .head⟩ i).round = _
    rw [sum_update_erase]
    unfold total at counted one
    rw [counted, one]
    dsimp only
    omega

/-- From a state in which all threads are at their loop heads the rest can be counted without
a loss. -/
theorem exists_counting [Fintype ι] [Nonempty ι]
    (reached : Transition.Reaches (step iters) (start ι) w) (heads : w.AtHead Finset.univ) :
    ∃ w', Transition.Reaches (step iters) (start ι) w' ∧ w'.Finished ∧
      w'.counter + w.total Finset.univ = w.counter + Fintype.card ι * iters := by
  have all : ∑ _ : ι, iters = Fintype.card ι * iters := Finset.sum_const_nat fun _ _ => rfl
  have pace : ∀ {v : Race ι}, v.Kept iters → v.AtHead Finset.univ →
      ∀ i ∈ Finset.univ, (v.thread i).round ≤ iters := by
    intro v kept tops i member
    have paced := kept.paced i
    unfold Paced at paced
    rw [tops i member] at paced
    exact paced
  have bound : w.total Finset.univ ≤ Fintype.card ι * iters :=
    (Finset.sum_le_sum (pace (reached_kept reached) heads)).trans_eq all
  have room : w.total Finset.univ + (Fintype.card ι * iters - w.total Finset.univ) ≤
      (Finset.univ : Finset ι).card * iters := by
    rw [Finset.card_univ]
    omega
  obtain ⟨v, ran, counter, tops, counted, _⟩ := exists_rounds Finset.univ heads _ room
  have whole : v.total Finset.univ = ∑ _ : ι, iters := by
    rw [all]
    omega
  have full : ∀ i, (v.thread i).round = iters := by
    have kept := reached_kept (reached.trans ran)
    intro i
    exact (Finset.sum_eq_sum_iff_of_le (pace kept tops)).mp whole i (Finset.mem_univ i)
  obtain ⟨final, went, ended, same⟩ := exists_finished tops full
  exact ⟨final, (reached.trans ran).trans went, ended, by omega⟩

/-- **What `worker_race` can print.** Where two or more threads count two or more times each,
the counter can have every value from 2 to the number of all increments at the end of a run, and
no other one. -/
theorem race_outcomes [Fintype ι] (threads : 2 ≤ Fintype.card ι) (rounds : 2 ≤ iters) (v : ℕ) :
    (∃ w, Transition.Reaches (step iters) (start ι) w ∧ w.Finished ∧ w.counter = v) ↔
      2 ≤ v ∧ v ≤ Fintype.card ι * iters := by
  have inhabited : Nonempty ι := Fintype.card_pos_iff.mp (by omega)
  constructor
  · rintro ⟨w, reached, ended, rfl⟩
    have kept := reached_kept reached
    have each := kept.round_of_finished ended
    refine ⟨kept.twice fun i => rounds.trans_eq (each i).symm, ?_⟩
    calc w.counter ≤ ∑ i, (w.thread i).round := kept.most
      _ = ∑ _ : ι, iters := Finset.sum_congr rfl fun i _ => each i
      _ = Fintype.card ι * iters := Finset.sum_const_nat fun _ _ => rfl
  · rintro ⟨low, high⟩
    obtain ⟨a, b, other⟩ := Fintype.exists_pair_of_one_lt_card threads
    have rest : (Fintype.card ι - 1) * iters = Fintype.card ι * iters - iters := by
      rw [Nat.sub_mul, Nat.one_mul]
    have most : 2 * iters ≤ Fintype.card ι * iters := Nat.mul_le_mul_right iters threads
    -- the rounds to lose: first those of `b`, then those of the others
    obtain ⟨lost, more, enough, room, sum⟩ : ∃ lost more, lost < iters ∧
        1 + more ≤ (Fintype.card ι - 1) * iters ∧
          lost + more = Fintype.card ι * iters - v := by
      by_cases few : Fintype.card ι * iters - v < iters
      · exact ⟨Fintype.card ι * iters - v, 0, few, by omega, by omega⟩
      · exact ⟨iters - 1, Fintype.card ι * iters - v - (iters - 1), by omega, by omega, by omega⟩
    obtain ⟨w, reached, two, heads, counted⟩ := exists_losing other enough room
    obtain ⟨final, ran, ended, counts⟩ := exists_counting reached heads
    exact ⟨final, ran, ended, by omega⟩

/-- The theorem at the threads and rounds of the program: the 16 million increments can come
out as 2. -/
theorem race_outcomes_run : ∃ w : Race (Fin 16),
    Transition.Reaches (step 1000000) (start (Fin 16)) w ∧ w.Finished ∧ w.counter = 2 :=
  (race_outcomes (by decide) (by decide) 2).mpr ⟨le_rfl, by decide⟩

end Race

end OperationSystems.Sync
