import Mathlib.Algebra.Order.BigOperators.Group.Finset
import OperationSystems.NodeList.Deadlock
import OperationSystems.NodeList.Traversal

/-!
# Every walk can come to its end

A thread is at rest where it holds no lock of a node and not that of the counters: between
two passes, two calls or two snapshots. The others have a number of steps left, which only
their own steps change. One of them is never blocked, so they all come to rest without a
step of those that are at rest.
-/

namespace OperationSystems.NodeList

open HandOverHand LinkedCells Transition

/-! ## The steps that are left -/

/-- The steps of a call of `inc_long` behind this point. -/
def IncLong.left : IncLong → ℕ
  | .lock _ => 3
  | .load _ => 2
  | .store _ _ => 1
  | .unlock _ => 0

/-- The steps of a pass, at most, that has this many nodes before it. -/
def TraversePc.left (ahead : ℕ) : TraversePc → ℕ
  | .lockFirst => 0
  | .readFirst => 8 * ahead + 4
  | .unlockEmpty => 1
  | .lockA _ => 8 * ahead + 3
  | .unlockFirst _ => 8 * ahead + 3
  | .readNext _ => 8 * ahead + 2
  | .lockB _ _ => 8 * ahead + 1
  | .evaluate _ _ => 8 * ahead + 8
  | .countPair _ _ call => 8 * ahead + 4 + call.left
  | .unlockA _ _ => 8 * ahead + 3
  | .unlockLast _ => 1
  | .countIteration (.lock _) => 0
  | .countIteration call => call.left + 1

/-- The steps of a call of `do_random_swap`, at most. -/
def SwapPc.left : SwapPc → ℕ
  | .start => 0
  | .lockFirst _ => 0
  | .readFirst index => 3 * index + 18
  | .missingA => 1
  | .lockA index _ => 3 * index + 17
  | .loop index i _ _ => 3 * (index - i) + 16
  | .broken _ _ _ => 15
  | .lockNext index i _ _ _ => 3 * (index - i) + 15
  | .unlockPrev index i _ _ _ => 3 * (index - i) + 14
  | .readB _ _ _ => 14
  | .missingB _ _ => 2
  | .missingPrev _ => 1
  | .lockB _ _ _ _ => 13
  | .compare _ _ _ _ => 12
  | .storePrev _ _ _ _ => 11
  | .loadNext _ _ _ _ => 10
  | .storeA _ _ _ _ _ => 9
  | .storeB _ _ _ _ => 8
  | .count _ _ _ call => call.left + 4
  | .unlockB _ _ _ => 3
  | .unlockA _ _ => 2
  | .unlockLast _ => 1

def MonitorPc.left : MonitorPc → ℕ
  | .lock => 0
  | .read values => snapshotOrder.length - values.length + 2
  | .unlock _ => 1

/-- The steps that a thread has to take, at most, before it is at rest. -/
def Pc.left (count : ℕ) (visited : List Node) : Pc → ℕ
  | .traverse pc => pc.left (count + 1 - visited.length)
  | .swap pc => pc.left
  | .monitor pc => pc.left

section Code

variable {s : Storage} {next : Node → Option Node} {held visited order : List Node}
  {counters : Counter → ℤ} {matchPred needSwap : PairPredicate}
  {iterCounter pairsCounter swapCounter : Counter}

/-- Every step of a traversal leaves fewer to its end. -/
theorem traverseList_left {pc : TraversePc} (holds : held = pc.holds s.first)
    (room : held ≠ [] → (∃ x, (Pc.traverse pc).wants s.first = some x) →
      visited.length ≤ s.count) (busy : 0 < pc.left (s.count + 1 - visited.length)) :
    (traverseList s matchPred iterCounter pairsCounter next counters pc).2.left
        (s.count + 1 - ((traverseList s matchPred iterCounter pairsCounter next counters
          pc).1.visits held visited).length) <
      pc.left (s.count + 1 - visited.length) := by
  cases pc with
  | lockFirst => exact absurd busy (lt_irrefl 0)
  | readFirst =>
      simp only [traverseList, Effect.visits]
      split <;> simp only [TraversePc.left] <;> omega
  | unlockEmpty => exact Nat.one_pos
  | lockA a =>
      have going : held ≠ [] := by simp [holds, TraversePc.holds]
      have fits := room going ⟨a, rfl⟩
      simp only [traverseList, Effect.visits, if_neg going, TraversePc.left, List.length_append,
        List.length_singleton]
      omega
  | unlockFirst a =>
      simp only [traverseList, Effect.visits, TraversePc.left]
      omega
  | readNext a =>
      simp only [traverseList, Effect.visits]
      split <;> simp only [TraversePc.left] <;> omega
  | lockB a b =>
      have going : held ≠ [] := by simp [holds, TraversePc.holds]
      have fits := room going ⟨b, rfl⟩
      simp only [traverseList, Effect.visits, if_neg going, TraversePc.left, List.length_append,
        List.length_singleton]
      omega
  | evaluate a b =>
      simp only [traverseList, Effect.visits]
      split <;> simp only [TraversePc.left, IncLong.left] <;> omega
  | countPair a b call =>
      cases call <;> exact Nat.lt_succ_self _
  | unlockA a b => exact Nat.lt_succ_self _
  | unlockLast a => exact Nat.one_pos
  | countIteration call =>
      cases call with
      | lock p => exact absurd busy (lt_irrefl 0)
      | load p => exact Nat.lt_succ_self _
      | store p read => exact Nat.lt_succ_self _
      | unlock p => exact Nat.one_pos

theorem doRandomSwap_left {pc : SwapPc} (rand : ℕ) (reckoned : pc.Reckoned s.count visited.length)
    (busy : 0 < pc.left) :
    (doRandomSwap s needSwap swapCounter rand next counters pc).2.left < pc.left := by
  cases pc with
  | start => exact absurd busy (lt_irrefl 0)
  | lockFirst index => exact absurd busy (lt_irrefl 0)
  | readFirst index =>
      simp only [doRandomSwap]
      split <;> simp only [SwapPc.left] <;> omega
  | lockA index a => exact Nat.lt_succ_self _
  | loop index i prev a =>
      simp only [doRandomSwap]
      split
      · split <;> simp only [SwapPc.left] <;> omega
      · simp only [SwapPc.left]
        omega
  | lockNext index i prev a node => exact Nat.lt_succ_self _
  | unlockPrev index i prev a node =>
      have further : i < index := reckoned.2.1
      simp only [doRandomSwap, SwapPc.left]
      omega
  | readB index prev a =>
      simp only [doRandomSwap]
      split <;> simp only [SwapPc.left] <;> omega
  | compare index prev a b =>
      simp only [doRandomSwap]
      split <;> simp only [SwapPc.left] <;> omega
  | count prev a b call =>
      cases call <;> exact Nat.lt_succ_self _
  | _ => exact Nat.lt_succ_self _

theorem monitor_left {pc : MonitorPc} (busy : 0 < pc.left) :
    (monitor counters pc).2.left < pc.left := by
  cases pc with
  | lock => exact absurd busy (lt_irrefl 0)
  | unlock values => exact Nat.one_pos
  | read values =>
      simp only [monitor]
      cases here : snapshotOrder[values.length]? with
      | none =>
          simp only [MonitorPc.left]
          omega
      | some p =>
          obtain ⟨inside, _⟩ := List.getElem?_eq_some_iff.mp here
          simp only [MonitorPc.left, List.length_append, List.length_singleton]
          omega

end Code

/-- Who holds a lock has steps left, and conversely. -/
theorem Pc.left_pos_iff {pc : Pc} {first : Node} {count : ℕ} {visited : List Node} :
    0 < pc.left count visited ↔ pc.holds first ≠ [] ∨ pc.owns = true := by
  cases pc with
  | traverse pc =>
      cases pc with
      | countPair a b call =>
          have some : 0 < (Pc.traverse (.countPair a b call)).left count visited :=
            Nat.lt_of_lt_of_le (Nat.succ_pos _) (Nat.le_add_right _ _)
          exact iff_of_true some (.inl (List.cons_ne_nil _ _))
      | countIteration call =>
          cases call <;> simp [Pc.left, TraversePc.left, Pc.holds, TraversePc.holds, Pc.owns,
            IncLong.owns]
      | _ => simp [Pc.left, TraversePc.left, Pc.holds, TraversePc.holds, Pc.owns]
  | swap pc =>
      cases pc <;> simp [Pc.left, SwapPc.left, Pc.holds, SwapPc.holds, Pc.owns]
  | monitor pc => cases pc <;> simp [Pc.left, MonitorPc.left, Pc.holds, Pc.owns]

/-! ## One step -/

variable {τ : Type*} {v : Variant} {s : Storage} {roles : τ → Role} {data : List Node}
  {w next : World τ} {t : τ}

/-- The steps that a thread has left. -/
def World.left (s : Storage) (w : World τ) (t : τ) : ℕ := (w.pc t).left s.count (w.visited t)

/-- Nobody holds the lock of a node or that of the counters. -/
def World.AtRest (s : Storage) (w : World τ) : Prop := ∀ t, w.left s t = 0

/-- There is something left for whoever holds a lock. -/
theorem Placed.left_pos_iff (placed : Placed s roles data w) :
    0 < w.left s t ↔ w.held t ≠ [] ∨ (w.pc t).owns = true := by
  rw [(placed.located t).held]
  exact Pc.left_pos_iff

/-- A walker that waits for a node has not visited all. -/
theorem Placed.room (placed : Placed s roles data w) (listed : s.Lists data)
    (sound : Sound (Conflicts v roles) (w.view s data)) (going : w.held t ≠ [])
    (wants : ∃ x, (w.pc t).wants s.first = some x) : (w.visited t).length ≤ s.count := by
  obtain ⟨x, wants⟩ := wants
  obtain ⟨none, _⟩ | ⟨walks, _, before, y, last, successor⟩ := placed.wants wants
  · exact absurd none going
  · obtain ⟨front, back, behind, split, passed, perm, head⟩ :=
      (sound.underway t walks).ahead sound.nodup last successor
    obtain ⟨rest, rfl⟩ := List.head?_eq_some_iff.mp head
    have total : (w.order s data).length = s.count + 1 := by
      rw [listed.count]
      exact congrArg Nat.succ (w.listed_perm data).length_eq
    have whole := congrArg List.length split
    have walked := congrArg List.length passed
    have same := perm.length_eq
    simp only [List.length_append, List.length_cons] at whole walked
    change (w.order s data).length = _ at whole
    change (w.visited t).length = _ at walked
    omega

/-- Every point of a thread has a next step. -/
theorem Located.exists_code {order held visited : List Node} {memory : Node → Option Node}
    {pc : Pc} (located : Located s (roles t) order memory held visited pc) (rand : ℕ) :
    ∃ effect pc', w.code s rand (roles t) pc = some (effect, pc') := by
  have runs := located.runs
  cases role : roles t with
  | traverse matchPred iterCounter pairsCounter =>
      rw [role] at runs
      cases pc with
      | traverse pc => exact ⟨_, _, rfl⟩
      | _ => exact runs.elim
  | swap needSwap swapCounter =>
      rw [role] at runs
      cases pc with
      | swap pc => exact ⟨_, _, rfl⟩
      | _ => exact runs.elim
  | monitor =>
      rw [role] at runs
      cases pc with
      | monitor pc => exact ⟨_, _, rfl⟩
      | _ => exact runs.elim

/-- The code of a thread that is not at rest leads nearer to its end. -/
theorem Placed.code_left (placed : Placed s roles data w) (listed : s.Lists data)
    (sound : Sound (Conflicts v roles) (w.view s data)) {rand : ℕ} {effect : Effect} {pc' : Pc}
    (busy : 0 < w.left s t) (coded : w.code s rand (roles t) (w.pc t) = some (effect, pc')) :
    pc'.left s.count (effect.visits (w.held t) (w.visited t)) < w.left s t := by
  exact World.code_cases
    (motive := fun _ pc effect pc' => w.held t = pc.holds s.first →
      pc.Reckoned s.count (w.visited t).length →
      (w.held t ≠ [] → (∃ x, pc.wants s.first = some x) → (w.visited t).length ≤ s.count) →
      0 < pc.left s.count (w.visited t) →
      pc'.left s.count (effect.visits (w.held t) (w.visited t)) <
        pc.left s.count (w.visited t))
    (fun _ _ _ _ holds _ room busy => traverseList_left holds room busy)
    (fun _ _ _ _ reckoned _ busy => doRandomSwap_left rand reckoned busy)
    (fun _ _ _ _ busy => monitor_left busy) coded (placed.located t).held
    (placed.located t).reckoned (fun going wants => placed.room listed sound going wants) busy

/-- Who holds no node can only want the sentinel. -/
theorem Placed.wants_first (placed : Placed s roles data w) {x : Node} (none : w.held t = [])
    (wants : (w.pc t).wants s.first = some x) : x = s.first := by
  obtain ⟨_, first⟩ | ⟨_, _, before, y, last, _⟩ := placed.wants wants
  · exact first
  · rw [none] at last
    simp at last

/-- Only who holds no node wants the sentinel. -/
theorem Placed.held_nil_of_wants_first (placed : Placed s roles data w)
    (sound : Sound (Conflicts v roles) (w.view s data))
    (wants : (w.pc t).wants s.first = some s.first) : w.held t = [] := by
  obtain ⟨none, _⟩ | ⟨_, _, before, y, _, front, back, split, head⟩ := placed.wants wants
  · exact none
  · -- the sentinel would stand behind another node
    obtain ⟨rest, rfl⟩ := List.head?_eq_some_iff.mp head
    have again : w.order s data = (front ++ [y]) ++ s.first :: rest := by simp [split]
    have here : w.order s data = [] ++ s.first :: w.listed data := rfl
    have same := (split_unique sound.nodup here again).1
    simp at same

/-- At rest no lock is held and no swap is between its stores. -/
theorem Placed.at_rest (placed : Placed s roles data w)
    (sound : Sound (Conflicts v roles) (w.view s data)) (counted : Counted w)
    (rest : w.AtRest s) : (∀ t, w.held t = []) ∧ w.countersLock = none ∧
      ∀ t, (w.pc t).hidden = none := by
  have idle : ∀ t, w.held t = [] ∧ (w.pc t).owns ≠ true := by
    intro t
    have none := mt placed.left_pos_iff.mpr (Nat.not_lt.mpr (rest t).le)
    push Not at none
    exact none
  refine ⟨fun t => (idle t).1, ?_, placed.settled_of_idle sound fun t => (idle t).1⟩
  by_contra owned
  obtain ⟨t, owner⟩ := Option.ne_none_iff_exists'.mp owned
  exact (idle t).2 ((counted.owner t).mp owner)

variable [Fintype τ]

/-- Where somebody is not at rest, somebody of these is not blocked. -/
theorem exists_busy_not_blocked (placed : Placed s roles data w)
    (sound : Sound (Conflicts v roles) (w.view s data)) (counted : Counted w)
    (busy : 0 < w.left s t) : ∃ u, 0 < w.left s u ∧ ¬ w.Blocked v s roles u := by
  obtain ⟨u, member, last⟩ := Finset.exists_max_image
    (Finset.univ.filter fun u => 0 < w.left s u) (w.rank s roles data)
    ⟨t, Finset.mem_filter.mpr ⟨Finset.mem_univ t, busy⟩⟩
  obtain ⟨_, busy⟩ := Finset.mem_filter.mp member
  by_cases blocked : w.Blocked v s roles u
  · obtain ⟨u', waits⟩ := blocked.waits
    -- the thread that it waits for is not at rest
    have also : 0 < w.left s u' := by
      refine placed.left_pos_iff.mpr ?_
      obtain ⟨x, wants, ⟨_, held⟩ | ⟨_, _, wanted⟩⟩ | ⟨_, owner⟩ := waits
      · exact .inl (List.ne_nil_of_mem held)
      · -- both want the node, and the first of them holds the one before it
        refine .inl fun none => ?_
        have owns : (w.pc u).owns ≠ true := by
          intro owns
          rw [(Pc.wants_of_owns s.first owns).1] at wants
          cases wants
        have going := (placed.left_pos_iff.mp busy).resolve_right owns
        exact going (placed.held_nil_of_wants_first sound
          (placed.wants_first none wanted ▸ wants))
      · exact .inr ((counted.owner u').mp owner)
    refine ⟨u', also, fun stuck => ?_⟩
    obtain ⟨u'', onward⟩ := stuck.waits
    have later := placed.rank_lt sound counted waits onward
    exact absurd (last u' (Finset.mem_filter.mpr ⟨Finset.mem_univ _, also⟩)) (Nat.not_le.mpr later)
  · exact ⟨u, busy, blocked⟩

variable [DecidableEq τ]

/-- A thread that is not blocked carries out its next step. -/
theorem Placed.exists_step (placed : Placed s roles data w) (rand : ℕ)
    (free : ¬ w.Blocked v s roles t) : ∃ effect pc' next,
      w.code s rand (roles t) (w.pc t) = some (effect, pc') ∧
        w.step v s roles (t, rand) = some next ∧ next.pc t = pc' ∧
          next.visited t = effect.visits (w.held t) (w.visited t) := by
  obtain ⟨effect, pc', coded⟩ := (placed.located t).exists_code (w := w) rand
  obtain ⟨node, counters⟩ := World.code_acquires coded
  have steps : ∀ next, w.perform v s roles t pc' effect = some next →
      w.step v s roles (t, rand) = some next := by
    intro next performed
    unfold World.step
    rw [coded]
    exact performed
  refine ⟨effect, pc', ?_⟩
  cases effect with
  | lock x =>
      have available : World.Available v s roles w t x := by
        by_contra taken
        exact free (.inl ⟨x, node x rfl, taken⟩)
      exact ⟨_, coded, steps _ (if_pos available), Function.update_self .., Function.update_self ..⟩
  | lockCounters =>
      have unlocked : w.countersLock = none := by
        by_contra taken
        exact free (.inr ⟨counters rfl, taken⟩)
      exact ⟨_, coded, steps _ (if_pos unlocked), Function.update_self .., rfl⟩
  | _ => exact ⟨_, coded, steps _ rfl, Function.update_self .., rfl⟩

/-! ## The run -/

/-- The step is one of a thread that holds a lock. -/
def Finishes (s : Storage) (w : World τ) (label : τ × ℕ) : Prop := 0 < w.left s label.1

/-- Where somebody is not at rest, somebody can go on towards the end of what it does. -/
theorem exists_finishing_step (listed : s.Lists data)
    (reached : Reaches (World.step v s roles) (World.start s roles) w) (busy : 0 < w.left s t) :
    ∃ label next, Finishes s w label ∧ w.step v s roles label = some next ∧
      ∑ u, next.left s u < ∑ u, w.left s u := by
  obtain ⟨placed, sound⟩ := invariants listed reached
  obtain ⟨u, busy, free⟩ := exists_busy_not_blocked placed sound (counted reached) busy
  obtain ⟨effect, pc', next, coded, moved, point, visited⟩ := placed.exists_step 0 free
  have own : next.left s u < w.left s u := by
    unfold World.left
    rw [point, visited]
    exact placed.code_left listed sound busy coded
  have others : ∀ u', u' ≠ u → next.left s u' = w.left s u' := by
    intro u' away
    obtain ⟨_, _, _, performed⟩ := World.step_cases moved
    obtain ⟨same, walked, _⟩ := World.perform_others away performed
    unfold World.left
    rw [same, walked]
  refine ⟨(u, 0), next, busy, moved, Finset.sum_lt_sum (fun u' _ => ?_) ⟨u, Finset.mem_univ u, own⟩⟩
  by_cases self : u' = u
  · exact self ▸ own.le
  · exact (others u' self).le

/-- All come to rest, and what the steps of threads that are not at rest keep is kept. -/
theorem exists_rest (listed : s.Lists data) {motive : World τ → Prop}
    (keeps : ∀ w label next, Reaches (World.step v s roles) (World.start s roles) w →
      motive w → Finishes s w label → w.step v s roles label = some next → motive next)
    (reached : Reaches (World.step v s roles) (World.start s roles) w) (holds : motive w) :
    ∃ final, ReachesBy (World.step v s roles) (Finishes s) w final ∧ motive final ∧
      final.AtRest s := by
  have advance : ∀ w, (Reaches (World.step v s roles) (World.start s roles) w ∧ motive w) →
      ¬ w.AtRest s → ∃ label next, Finishes s w label ∧ w.step v s roles label = some next ∧
        (Reaches (World.step v s roles) (World.start s roles) next ∧ motive next) ∧
          ∑ u, next.left s u < ∑ u, w.left s u := by
    rintro w ⟨reached, holds⟩ working
    obtain ⟨t, some⟩ := not_forall.mp working
    obtain ⟨label, next, finishes, moved, less⟩ :=
      exists_finishing_step listed reached (Nat.pos_of_ne_zero some)
    exact ⟨label, next, finishes, moved, ⟨reached.next label moved,
      keeps w label next reached holds finishes moved⟩, less⟩
  obtain ⟨final, ran, ⟨_, kept⟩, rest⟩ :=
    exists_reachesBy_of_measure _ (World.AtRest s) _ advance ⟨reached, holds⟩
  exact ⟨final, ran, kept, rest⟩

/-- **Every walk can come to its end.** From every reachable state, whatever the threads do,
those that hold a lock can all give up what they hold. For this no other thread has to take
a step. Then the memory holds the list of the completed swaps, all of it. -/
theorem walks_can_end (listed : s.Lists data)
    (reached : Reaches (World.step v s roles) (World.start s roles) w) :
    ∃ final, ReachesBy (World.step v s roles) (Finishes s) w final ∧
      (∀ t, final.held t = []) ∧ final.countersLock = none ∧
      Chain final.next s.first (final.listed data) ∧
      ∀ t, w.held t = [] → w.countersLock ≠ some t → final.pc t = w.pc t := by
  obtain ⟨placed, _⟩ := invariants listed reached
  have keeps : ∀ u label next, Reaches (World.step v s roles) (World.start s roles) u →
      (∀ t, w.left s t = 0 → u.left s t = 0 ∧ u.pc t = w.pc t) → Finishes s u label →
        u.step v s roles label = some next →
          ∀ t, w.left s t = 0 → next.left s t = 0 ∧ next.pc t = w.pc t := by
    intro u label next _ same finishes moved t idle
    obtain ⟨still, here⟩ := same t idle
    have away : t ≠ label.1 := by
      rintro rfl
      exact absurd finishes (Nat.not_lt.mpr still.le)
    obtain ⟨_, _, _, performed⟩ := World.step_cases moved
    obtain ⟨point, walked, _⟩ := World.perform_others away performed
    refine ⟨?_, point.trans here⟩
    unfold World.left
    rw [point, walked]
    exact still
  obtain ⟨final, ran, kept, rest⟩ := exists_rest listed keeps reached fun t idle => ⟨idle, rfl⟩
  have after := reached.trans ran.reaches
  obtain ⟨located, sound⟩ := invariants listed after
  obtain ⟨held, unlocked, settled⟩ := located.at_rest sound (counted after) rest
  refine ⟨final, ran, held, unlocked, located.chain_settled sound settled, ?_⟩
  intro t none other
  refine (kept t (Nat.eq_zero_of_not_pos fun some => ?_)).2
  rcases placed.left_pos_iff.mp some with holds | owns
  · exact holds none
  · exact other (((counted reached).owner t).mpr owns)

/-- The theorem where a swap waits for a node that a traversal holds. -/
theorem walks_can_end_run : ∃ s w final,
    storageInit (.rw true) ⟨id, fun _ => true, fun _ => true⟩ 3 = .ok (some s) ∧
      w.queued 0 = true ∧ ReachesBy (World.step (.rw true) s swapAndTraverse) (Finishes s) w final ∧
      ∀ t, final.held t = [] := by
  have ran : ((storageInit (.rw true) ⟨id, fun _ => true, fun _ => true⟩ 3).toOption.join.bind
      fun s => (run (World.step (.rw true) s swapAndTraverse) (World.start s swapAndTraverse)
        (List.replicate 4 (1, 0) ++ List.replicate 4 (0, 1))).map fun w => w.queued 0) =
      some true := by
    decide +kernel
  obtain ⟨s, w, built, reached, asleep⟩ := exists_reaches ran
  obtain ⟨final, went, held, _⟩ := walks_can_end (storageInit_lists built) reached
  exact ⟨s, w, final, built, asleep, went, held⟩

end OperationSystems.NodeList
