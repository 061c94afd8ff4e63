import OperationSystems.NodeList.SwapCounters

/-!
# What the monitor prints

`snapshot_counters` reads six counters one after another, under the lock that every
increment holds. What it has read are therefore the counters of one moment, and they are
behind the swaps by no more than the threads that are just counting.
-/

namespace OperationSystems.NodeList

open Tally Transition

/-- The counters are still those that the monitor has read so far. -/
def Pc.Fresh (counters : Counter → ℤ) : Pc → Prop
  | .monitor (.read values) => values = (snapshotOrder.take values.length).map counters
  | .monitor (.unlock values) => values = snapshotOrder.map counters
  | _ => True

/-- Who does not hold the lock has read nothing. -/
theorem Pc.fresh_of_free {pc : Pc} (counters : Counter → ℤ) (free : pc.owns = false) :
    pc.Fresh counters := by
  cases pc with
  | traverse pc => trivial
  | swap pc => trivial
  | monitor pc =>
      cases pc with
      | lock => trivial
      | read values => cases free
      | unlock values => cases free

/-- `snapshot_counters` goes on with the counters as they are. -/
theorem monitor_fresh {counters : Counter → ℤ} {pc : MonitorPc}
    (fresh : (Pc.monitor pc).Fresh counters) :
    (Pc.monitor (monitor counters pc).2).Fresh counters := by
  cases pc with
  | lock => rfl
  | unlock values => trivial
  | read values =>
      have so : values = (snapshotOrder.take values.length).map counters := fresh
      simp only [monitor]
      cases left : snapshotOrder[values.length]? with
      | none =>
          have all : snapshotOrder.length ≤ values.length := List.getElem?_eq_none_iff.mp left
          rw [List.take_of_length_le all] at so
          exact so
      | some p =>
          change values ++ [counters p] =
            (snapshotOrder.take (values ++ [counters p]).length).map counters
          rw [List.length_append, List.length_singleton, List.take_add_one, left, List.map_append,
            ← so]
          rfl

variable {τ : Type*} {v : Variant} {s : Storage} {roles : τ → Role} {w next later : World τ}
  {t u : τ} {pc' : Pc} {effect : Effect}

/-- A step reads the counters as they are, and who counts is no monitor. -/
theorem World.code_fresh {rand : ℕ} (fresh : (w.pc t).Fresh w.counters)
    (coded : w.code s rand (roles t) (w.pc t) = some (effect, pc')) :
    pc'.Fresh w.counters ∧
      ∀ p value, effect = .count p value → ∀ counters, pc'.Fresh counters := by
  revert fresh
  refine code_cases (motive := fun _ pc effect pc' => pc.Fresh w.counters → pc'.Fresh w.counters ∧
    ∀ p value, effect = .count p value → ∀ counters, pc'.Fresh counters) ?_ ?_ ?_ coded
  · exact fun _ _ _ _ _ => ⟨trivial, fun _ _ _ _ => trivial⟩
  · exact fun _ _ _ _ => ⟨trivial, fun _ _ _ _ => trivial⟩
  · intro pc fresh
    refine ⟨monitor_fresh fresh, fun p value counts => ?_⟩
    cases pc with
    | lock => cases counts
    | read values => cases counts
    | unlock values => cases counts

variable [Fintype τ] [DecidableEq τ]

/-- **The step lemma.** What a monitor has read under the lock stays as it read it. -/
theorem fresh_step {label : τ × ℕ} (fresh : ∀ t, (w.pc t).Fresh w.counters) (counted : Counted w)
    (moved : w.step v s roles label = some next) (t : τ) : (next.pc t).Fresh next.counters := by
  obtain ⟨effect, pc', coded, performed⟩ := World.step_cases moved
  obtain ⟨goes, counting⟩ := World.code_fresh (fresh label.1) coded
  have accounts := World.code_accounts coded
  have settles := World.perform_settles performed
  have quiet : next.counters = w.counters →
      (next.pc = Function.update w.pc label.1 pc' ∨ next.pc = w.pc) →
      (next.pc t).Fresh next.counters := by
    intro counters pcs
    rw [counters]
    rcases pcs with pcs | same
    · rw [pcs]
      by_cases self : t = label.1
      · subst self
        rwa [Function.update_self]
      · rw [Function.update_of_ne self]
        exact fresh t
    · rw [same]
      exact fresh t
  cases effect with
  | lock x => exact quiet settles.2.1 settles.2.2
  | lockCounters => exact quiet settles.2.2.1 (.inl settles.2.2.2)
  | count p value =>
      obtain ⟨_, counters, pcs⟩ := settles
      obtain ⟨_, ⟨read, storing, _⟩, _⟩ := accounts
      rw [counters, pcs]
      by_cases self : t = label.1
      · subst self
        rw [Function.update_self]
        exact counting p value rfl _
      · rw [Function.update_of_ne self]
        -- the counter is stored under the lock
        exact Pc.fresh_of_free _ (counted.others (Pc.owns_of_store storing) t self)
  | unlockCounters => exact quiet settles.2.1 (.inl settles.2.2)
  | _ => exact quiet settles.2.1 (.inl settles.2.2)

/-- **The run lemma.** So it does in every reachable state. -/
theorem reached_fresh (reached : Reaches (World.step v s roles) (World.start s roles) w) (t : τ) :
    (w.pc t).Fresh w.counters := by
  induction reached generalizing t with
  | start =>
      change (roles t).begin.Fresh _
      cases roles t <;> trivial
  | step label before _ moved ih => exact fresh_step ih (counted before) moved t

/-! ## Later snapshots -/

/-- No step takes a counter back. -/
theorem counters_le_step {label : τ × ℕ} (counted : Counted w)
    (moved : w.step v s roles label = some next) (p : Counter) :
    w.counters p ≤ next.counters p := by
  obtain ⟨effect, pc', coded, performed⟩ := World.step_cases moved
  have accounts := World.code_accounts coded
  have settles := World.perform_settles performed
  cases effect with
  | lock x => rw [settles.2.1]
  | lockCounters => rw [settles.2.2.1]
  | count q value =>
      obtain ⟨_, counters, _⟩ := settles
      obtain ⟨_, ⟨read, storing, rfl⟩, _⟩ := accounts
      have still := counted.fresh label.1 q read storing
      rw [counters]
      by_cases same : p = q
      · subst same
        rw [Function.update_self]
        omega
      · rw [Function.update_of_ne same]
  | unlockCounters => rw [settles.2.1]
  | _ => rw [settles.2.1]

/-- No counter is ever set back. -/
theorem counters_le (reached : Reaches (World.step v s roles) (World.start s roles) w)
    (after : Reaches (World.step v s roles) w later) (p : Counter) :
    w.counters p ≤ later.counters p := by
  induction after with
  | start => exact le_rfl
  | step label before _ moved ih =>
      exact ih.trans (counters_le_step (counted (reached.trans before)) moved p)

/-! ## How far the counters are behind -/

omit [Fintype τ] [DecidableEq τ] in
/-- A thread owes at most one increment, and only of the counter of its swaps. -/
theorem Pc.owes_le {c : Counter} (counts : CountsSwaps roles c) {pc : Pc}
    (charged : Charged (roles t) pc) : pc.owes c ≤ if (roles t).swaps = some c then 1 else 0 := by
  cases pc with
  | traverse pc => exact Nat.zero_le _
  | monitor pc => exact Nat.zero_le _
  | swap pc =>
      cases pc with
      | count prev a b call =>
          have mine := charged call rfl
          by_cases same : call.counter = c
          · rw [if_pos (counts t (same ▸ mine))]
            change call.owes c ≤ 1
            unfold IncLong.owes
            split
            · exact Nat.zero_le 1
            · split <;> omega
          · have none : call.owes c = 0 := by
              unfold IncLong.owes
              split
              · rfl
              · rw [if_neg same]
            change call.owes c ≤ _
            rw [none]
            exact Nat.zero_le _
      | _ => exact Nat.zero_le _

omit [DecidableEq τ] in
/-- A swap counter is behind by the threads that are about to count on it. -/
theorem Exact.made_le {c : Counter} (counts : CountsSwaps roles c) (exact : Exact roles c w) :
    w.counters c ≤ w.made roles c ∧ (w.made roles c : ℤ) ≤
      w.counters c + (Finset.univ.filter fun u => (roles u).swaps = some c).card := by
  have behind : tally (Pc.owes c) w.pc ≤
      (Finset.univ.filter fun u => (roles u).swaps = some c).card := by
    rw [Finset.card_filter]
    exact Finset.sum_le_sum fun u _ => Pc.owes_le counts (exact.charged u)
  have total := exact.exact
  constructor <;> omega

/-- **The monitor prints the counters of one moment.** Whenever `snapshot_counters` has read
its six counters, they are the six counters as they are then; each swap counter is behind
the swaps completed by at most one for each thread that counts on it; and what any monitor
reads later is nowhere smaller. The counters, of type `long`, are taken as unbounded. -/
theorem snapshot_of_one_moment (program : ∀ t, (roles t).OfProgram)
    (reached : Reaches (World.step v s roles) (World.start s roles) w) {values : List ℤ}
    (read : w.pc t = .monitor (.unlock values)) :
    values = snapshotOrder.map w.counters ∧
      (∀ c, c = .ascSwaps ∨ c = .descSwaps ∨ c = .equalSwaps →
        w.counters c ≤ w.made roles c ∧ (w.made roles c : ℤ) ≤
          w.counters c + (Finset.univ.filter fun u => (roles u).swaps = some c).card) ∧
      ∀ later u values', Reaches (World.step v s roles) w later →
        later.pc u = .monitor (.unlock values') → List.Forall₂ (· ≤ ·) values values' := by
  have seen : values = snapshotOrder.map w.counters := by
    have now := reached_fresh reached t
    rw [read] at now
    exact now
  refine ⟨seen, fun c swaps => ?_, fun later u values' after also => ?_⟩
  · have counts := countsSwaps program swaps
    exact (exact counts reached).made_le counts
  · have afterwards : values' = snapshotOrder.map later.counters := by
      have now := reached_fresh (reached.trans after) u
      rw [also] at now
      exact now
    rw [seen, afterwards, List.forall₂_map_left_iff, List.forall₂_map_right_iff]
    exact List.forall₂_same.mpr fun p _ => counters_le reached after p

/-- A swapping thread and the monitor. -/
def swapAndMonitor : Fin 2 → Role
  | 0 => threadSwapDesc
  | 1 => threadMonitor

/-- The theorem where a swap is completed while the monitor holds the lock of the counters:
what it has read does not count it. -/
theorem snapshot_of_one_moment_run : ∃ s w,
    storageInit .mutex ⟨id, fun _ => true, fun _ => true⟩ 3 = .ok (some s) ∧
      Reaches (World.step .mutex s swapAndMonitor) (World.start s swapAndMonitor) w ∧
      w.made swapAndMonitor .descSwaps = 1 ∧
      [0, 0, 0, 0, 0, 0] = snapshotOrder.map w.counters ∧
      ∀ later u values', Reaches (World.step .mutex s swapAndMonitor) w later →
        later.pc u = .monitor (.unlock values') →
          List.Forall₂ (· ≤ ·) [0, 0, 0, 0, 0, 0] values' := by
  have ran : ((storageInit .mutex ⟨id, fun _ => true, fun _ => true⟩ 3).toOption.join.bind fun s =>
      (run (World.step .mutex s swapAndMonitor) (World.start s swapAndMonitor)
        (List.replicate 3 (1, 0) ++ List.replicate 12 (0, 0) ++ List.replicate 5 (1, 0))).map
        fun w => (w.pc 1, w.made swapAndMonitor .descSwaps)) =
      some (.monitor (.unlock [0, 0, 0, 0, 0, 0]), 1) := by
    decide +kernel
  obtain ⟨s, w, built, reached, seen⟩ := exists_reaches ran
  simp only [Prod.mk.injEq] at seen
  have program : ∀ t, (swapAndMonitor t).OfProgram := by
    intro t
    match t with
    | 0 => simp [swapAndMonitor, Role.OfProgram]
    | 1 => simp [swapAndMonitor, Role.OfProgram]
  obtain ⟨now, _, afterwards⟩ := snapshot_of_one_moment program reached seen.1
  exact ⟨s, w, built, reached, seen.2, now, afterwards⟩

end OperationSystems.NodeList
