import Mathlib.Data.Fintype.EquivFin
import Mathlib.Data.Fintype.Lattice
import OperationSystems.NodeList.Chains
import OperationSystems.NodeList.Counters

/-!
# Hand-over-hand locking never deadlocks

A thread that waits for the lock of a node waits for the one directly behind those it
holds. The order of the list changes, but at any time whoever waits for a node waits for
one that stands behind all its own, a reader that lets a writer go first comes before that
writer, `counters_lock` comes after all nodes, and who holds it waits for nothing.
-/

namespace OperationSystems.NodeList

open HandOverHand LinkedCells Transition

variable {τ : Type*} {v : Variant} {s : Storage} {roles : τ → Role} {data : List Node}
  {w : World τ} {t u : τ}

/-- The thread waits for the other one: for a lock that it holds, or behind it for a lock
of a node that it waits for as well. -/
def World.Waits (v : Variant) (s : Storage) (roles : τ → Role) (w : World τ) (t u : τ) : Prop :=
  (∃ x, (w.pc t).wants s.first = some x ∧
      (v.conflict (roles t) (roles u) = true ∧ x ∈ w.held u ∨
        v.waitsBehind (roles t) (roles u) = true ∧ w.queued u = true ∧
          (w.pc u).wants s.first = some x)) ∨
    (w.pc t).wantsCounters = true ∧ w.countersLock = some u

/-! ## What is waited for -/

section Code

variable {next : Node → Option Node} {counters : Counter → ℤ}
  {matchPred needSwap : PairPredicate} {iterCounter pairsCounter swapCounter : Counter}

/-- The effect of a step takes the lock that the point wants. -/
def Acquires (first : Node) (pc : Pc) (effect : Effect) : Prop :=
  (∀ x, effect = .lock x → pc.wants first = some x) ∧
    (effect = .lockCounters → pc.wantsCounters = true)

/-- The locks of a traversal. -/
theorem traverseList_acquires (pc : TraversePc) : Acquires s.first (.traverse pc)
    (traverseList s matchPred iterCounter pairsCounter next counters pc).1 := by
  cases pc with
  | lockFirst => exact ⟨by rintro _ ⟨⟩; rfl, nofun⟩
  | lockA a => exact ⟨by rintro _ ⟨⟩; rfl, nofun⟩
  | lockB a b => exact ⟨by rintro _ ⟨⟩; rfl, nofun⟩
  | countPair a b call =>
      cases call with
      | lock p => exact ⟨nofun, fun _ => rfl⟩
      | _ => exact ⟨nofun, nofun⟩
  | countIteration call =>
      cases call with
      | lock p => exact ⟨nofun, fun _ => rfl⟩
      | _ => exact ⟨nofun, nofun⟩
  | _ => exact ⟨nofun, nofun⟩

/-- The locks of a swap. -/
theorem doRandomSwap_acquires (rand : ℕ) (pc : SwapPc) : Acquires s.first (.swap pc)
    (doRandomSwap s needSwap swapCounter rand next counters pc).1 := by
  cases pc with
  | lockFirst index => exact ⟨by rintro _ ⟨⟩; rfl, nofun⟩
  | lockA index a => exact ⟨by rintro _ ⟨⟩; rfl, nofun⟩
  | lockNext index i prev a node => exact ⟨by rintro _ ⟨⟩; rfl, nofun⟩
  | lockB index prev a b => exact ⟨by rintro _ ⟨⟩; rfl, nofun⟩
  | count prev a b call =>
      cases call with
      | lock p => exact ⟨nofun, fun _ => rfl⟩
      | _ => exact ⟨nofun, nofun⟩
  | _ => exact ⟨nofun, nofun⟩

/-- The monitor takes no lock of a node. -/
theorem monitor_acquires (first : Node) (pc : MonitorPc) :
    Acquires first (.monitor pc) (monitor counters pc).1 := by
  cases pc with
  | lock => exact ⟨nofun, fun _ => rfl⟩
  | _ => exact ⟨nofun, nofun⟩

end Code

theorem World.code_acquires {rand : ℕ} {effect : Effect} {pc' : Pc}
    (coded : w.code s rand (roles t) (w.pc t) = some (effect, pc')) :
    Acquires s.first (w.pc t) effect :=
  code_cases (motive := fun _ pc effect _ => Acquires s.first pc effect)
    (fun _ _ _ => traverseList_acquires) (fun _ _ => doRandomSwap_acquires rand)
    (monitor_acquires s.first) coded

/-- Who holds `counters_lock` wants no other lock. -/
theorem Pc.wants_of_owns {pc : Pc} (first : Node) (owns : pc.owns = true) :
    pc.wants first = none ∧ pc.wantsCounters = false := by
  cases pc with
  | traverse pc =>
      cases pc with
      | countPair a b call =>
          cases call with
          | lock p => cases owns
          | _ => exact ⟨rfl, rfl⟩
      | countIteration call =>
          cases call with
          | lock p => cases owns
          | _ => exact ⟨rfl, rfl⟩
      | _ => cases owns
  | swap pc =>
      cases pc with
      | count prev a b call =>
          cases call with
          | lock p => cases owns
          | _ => exact ⟨rfl, rfl⟩
      | _ => cases owns
  | monitor pc =>
      cases pc with
      | lock => cases owns
      | _ => exact ⟨rfl, rfl⟩

/-- Who waits for `counters_lock` waits for no node. -/
theorem Pc.wants_of_wantsCounters {pc : Pc} (first : Node) (wants : pc.wantsCounters = true) :
    pc.wants first = none := by
  cases pc with
  | traverse pc => cases pc <;> first | rfl | cases wants
  | swap pc => cases pc <;> first | rfl | cases wants
  | monitor pc => rfl

/-- At a point that locks a node, the thread holds none and the node is the sentinel, or it
is on its way, has taken out no node, and has read the node from the last one it holds. -/
theorem Pc.wants_cases {pc : Pc} {first x : Node} (wants : pc.wants first = some x) :
    pc.holds first = [] ∧ x = first ∨
      pc.walks = true ∧ pc.hidden = none ∧
        ∃ before y, pc.holds first = before ++ [y] ∧ pc.expects first = some (y, some x) := by
  cases pc with
  | traverse pc =>
      cases pc with
      | lockFirst => exact .inl ⟨rfl, (Option.some.inj wants).symm⟩
      | lockA a => exact .inr ⟨rfl, rfl, [], first, rfl, congrArg (fun o => some (first, o)) wants⟩
      | lockB a b => exact .inr ⟨rfl, rfl, [], a, rfl, congrArg (fun o => some (a, o)) wants⟩
      | _ => cases wants
  | swap pc =>
      cases pc with
      | lockFirst index => exact .inl ⟨rfl, (Option.some.inj wants).symm⟩
      | lockA index a =>
          exact .inr ⟨rfl, rfl, [], first, rfl, congrArg (fun o => some (first, o)) wants⟩
      | lockNext index i prev a node =>
          exact .inr ⟨rfl, rfl, [prev], a, rfl, congrArg (fun o => some (a, o)) wants⟩
      | lockB index prev a b =>
          exact .inr ⟨rfl, rfl, [prev], a, rfl, congrArg (fun o => some (a, o)) wants⟩
      | _ => cases wants
  | monitor pc => cases wants

/-- Where a thread that wants a node stands in the list. -/
theorem Placed.wants (placed : Placed s roles data w) {x : Node}
    (wants : (w.pc t).wants s.first = some x) :
    w.held t = [] ∧ x = s.first ∨
      (w.pc t).walks = true ∧ (w.pc t).hidden = none ∧
        ∃ before y, w.held t = before ++ [y] ∧ Successor (w.order s data) y (some x) := by
  have located := placed.located t
  obtain ⟨none, first⟩ | ⟨walks, shown, before, y, holds, expects⟩ := Pc.wants_cases wants
  · exact .inl ⟨located.held.trans none, first⟩
  · exact .inr ⟨walks, shown, before, y, located.held.trans holds, located.expects y _ expects⟩

/-! ## The rank of a waiting thread -/

/-- Positions in the list, twice, with a reader before a writer; `counters_lock` is behind
all nodes. -/
def World.rank (s : Storage) (roles : τ → Role) (data : List Node) (w : World τ) (t : τ) : ℕ :=
  match (w.pc t).wants s.first with
  | some x => 2 * (w.order s data).idxOf x + if (roles t).writes = true then 1 else 0
  | none => 2 * (w.order s data).length + 2

theorem World.rank_node {x : Node} (wants : (w.pc t).wants s.first = some x) :
    w.rank s roles data t =
      2 * (w.order s data).idxOf x + if (roles t).writes = true then 1 else 0 := by
  unfold World.rank
  rw [wants]

theorem World.rank_counters (wants : (w.pc t).wantsCounters = true) :
    w.rank s roles data t = 2 * (w.order s data).length + 2 := by
  unfold World.rank
  rw [Pc.wants_of_wantsCounters s.first wants]

/-- Only readers wait behind a queued writer. -/
theorem Variant.waitsBehind_writes {first second : Role}
    (waits : v.waitsBehind first second = true) : first.writes = false ∧ second.writes = true := by
  cases v with
  | mutex => cases waits
  | rw readersWait =>
      cases readersWait with
      | false => cases waits
      | true =>
          change (!first.writes && second.writes) = true at waits
          simpa using waits

/-- Waiting for a thread that waits as well is waiting for something earlier. -/
theorem Placed.rank_lt (placed : Placed s roles data w)
    (sound : Sound (Conflicts v roles) (w.view s data)) (counted : Counted w) {u' : τ}
    (waits : w.Waits v s roles t u) (onward : w.Waits v s roles u u') :
    w.rank s roles data t < w.rank s roles data u := by
  obtain ⟨x, wants, ⟨_, held⟩ | ⟨behind, _, also⟩⟩ | ⟨_, owner⟩ := waits
  · rw [World.rank_node wants]
    have small : (if (roles t).writes = true then 1 else 0) ≤ 1 := by split <;> omega
    obtain ⟨y, next, _⟩ | ⟨counters, _⟩ := onward
    · rw [World.rank_node next]
      obtain ⟨none, _⟩ | ⟨walks, _, before, z, last, successor⟩ := placed.wants next
      · rw [none] at held
        cases held
      · have ahead := sound.idxOf_lt walks last successor held
        change (w.order s data).idxOf x < (w.order s data).idxOf y at ahead
        omega
    · rw [World.rank_counters counters]
      have inside : (w.order s data).idxOf x ≤ (w.order s data).length := List.idxOf_le_length
      omega
  · obtain ⟨reads, writes⟩ := Variant.waitsBehind_writes behind
    rw [World.rank_node wants, World.rank_node also, reads, writes]
    simp
  · -- who holds `counters_lock` waits for nothing
    have idle := Pc.wants_of_owns s.first ((counted.owner u).mp owner)
    obtain ⟨y, next, _⟩ | ⟨counters, _⟩ := onward
    · rw [idle.1] at next
      cases next
    · rw [idle.2] at counters
      cases counters

/-- The next step of the thread would only put it to sleep, or keep it waiting for
`counters_lock`. -/
def World.Blocked (v : Variant) (s : Storage) (roles : τ → Role) (w : World τ) (t : τ) : Prop :=
  (∃ x, (w.pc t).wants s.first = some x ∧ ¬ World.Available v s roles w t x) ∨
    (w.pc t).wantsCounters = true ∧ w.countersLock ≠ none

/-- A blocked thread waits for another. -/
theorem World.Blocked.waits (blocked : w.Blocked v s roles t) : ∃ u, w.Waits v s roles t u := by
  obtain ⟨x, wants, taken⟩ | ⟨counters, taken⟩ := blocked
  · unfold World.Available at taken
    rw [not_and_or] at taken
    push Not at taken
    obtain ⟨u, conflicts, held⟩ | ⟨u, behind, queued, also⟩ := taken
    · exact ⟨u, .inl ⟨x, wants, .inl ⟨conflicts, held⟩⟩⟩
    · exact ⟨u, .inl ⟨x, wants, .inr ⟨behind, queued, also⟩⟩⟩
  · obtain ⟨u, owner⟩ := Option.ne_none_iff_exists'.mp taken
    exact ⟨u, .inr ⟨counters, owner⟩⟩

/-! ## The segment before a waiting thread -/

variable [Fintype τ]

/-- The node that a walker wants is not taken out: the swap would hold the node before. -/
theorem Placed.wanted_visible (placed : Placed s roles data w)
    (sound : Sound (Conflicts v roles) (w.view s data)) {x y : Node}
    (shown : (w.pc t).hidden = none) (held : y ∈ w.held t)
    (successor : Successor (w.order s data) y (some x)) :
    w.visible x = true := by
  refine World.visible_iff.mpr fun u hides => ?_
  obtain ⟨front, prev, b, back, site, theirs, _, _, writes, _⟩ := placed.hiding sound hides
  obtain ⟨front', back', split, head⟩ := successor
  obtain ⟨rest, rfl⟩ := List.head?_eq_some_iff.mp head
  have one : w.order s data = (front ++ [prev]) ++ x :: b :: back := by simp [site]
  have two : w.order s data = (front' ++ [y]) ++ x :: rest := by simp [split]
  have same := (split_unique sound.nodup one two).1
  obtain rfl : prev = y := by simpa using List.append_inj_right' same rfl
  have away : t ≠ u := by
    rintro rfl
    rw [shown] at hides
    cases hides
  apply sound.apart t u away (.of_writes t writes) held
  change prev ∈ w.held u
  rw [theirs]
  exact List.mem_cons_self

/-- **The segment.** What a thread that waits for a node holds is a contiguous segment of
the chain in memory, and the node is the one directly behind; or it holds none and waits
for the sentinel. -/
theorem Placed.segment (placed : Placed s roles data w)
    (sound : Sound (Conflicts v roles) (w.view s data)) {x : Node}
    (wants : (w.pc t).wants s.first = some x) :
    w.held t = [] ∧ x = s.first ∨ w.held t ≠ [] ∧ ∃ chain front back,
      Chain w.next s.first chain ∧ s.first :: chain = front ++ w.held t ++ x :: back := by
  obtain ⟨none, first⟩ | ⟨walks, shown, before, y, last, successor⟩ := placed.wants wants
  · exact .inl ⟨none, first⟩
  · obtain ⟨some, _⟩ := sound.underway t walks
    refine .inr ⟨some, (w.listed data).filter w.visible, ?_⟩
    obtain ⟨front, back, _, split, _, _, head⟩ :=
      (sound.underway t walks).ahead sound.nodup last successor
    obtain ⟨rest, rfl⟩ := List.head?_eq_some_iff.mp head
    refine ⟨front.filter w.visible, rest.filter w.visible, placed.chain sound, ?_⟩
    have own : (w.held t).filter w.visible = w.held t := by
      refine List.filter_eq_self.mpr fun z member => ?_
      exact placed.visible_of_held sound member (by rw [shown]; nofun)
    have seen : w.visible x = true :=
      placed.wanted_visible sound shown (by simp [last]) successor
    change w.order s data = front ++ w.held t ++ x :: rest at split
    calc s.first :: (w.listed data).filter w.visible
        = (w.order s data).filter w.visible :=
          (List.filter_cons_of_pos (placed.first_visible sound)).symm
      _ = front.filter w.visible ++ w.held t ++ x :: rest.filter w.visible := by
          rw [split, List.filter_append, List.filter_append, own, List.filter_cons_of_pos seen]

/-! ## No cycle -/

variable [DecidableEq τ]

/-- **No deadlock.** On every list, in every reachable state: a thread that waits for a node
holds none and waits for the sentinel, or it holds a contiguous segment of the chain in
memory and waits for the node directly behind it; the holder of `counters_lock` has no lock
to take next; and no cycle of threads wait for each other. -/
theorem no_deadlock (listed : s.Lists data)
    (reached : Reaches (World.step v s roles) (World.start s roles) w) :
    (∀ t rand x pc', w.code s rand (roles t) (w.pc t) = some (.lock x, pc') →
      w.held t = [] ∧ x = s.first ∨ w.held t ≠ [] ∧ ∃ chain front back,
        Chain w.next s.first chain ∧ s.first :: chain = front ++ w.held t ++ x :: back) ∧
      (∀ t rand effect pc', w.countersLock = some t →
        w.code s rand (roles t) (w.pc t) = some (effect, pc') →
          (∀ x, effect ≠ .lock x) ∧ effect ≠ .lockCounters) ∧
      ∀ t, ¬ Relation.TransGen (w.Waits v s roles) t t := by
  obtain ⟨placed, sound⟩ := invariants listed reached
  have counted := counted reached
  refine ⟨fun t rand x pc' coded => ?_, fun t rand effect pc' owner coded => ?_, fun t => ?_⟩
  · exact placed.segment sound ((World.code_acquires coded).1 x rfl)
  · obtain ⟨node, counters⟩ := World.code_acquires coded
    have idle := Pc.wants_of_owns s.first ((counted.owner t).mp owner)
    refine ⟨?_, ?_⟩
    · rintro x rfl
      have wants := node x rfl
      rw [idle.1] at wants
      cases wants
    · rintro rfl
      have wants := counters rfl
      rw [idle.2] at wants
      cases wants
  · exact not_transGen_self (fun _ _ _ waits onward =>
      placed.rank_lt sound counted waits onward) t

/-- The theorem where a writer waits for a node that a traversal holds. -/
theorem no_deadlock_run : ∃ s w,
    storageInit (.rw true) ⟨id, fun _ => true, fun _ => true⟩ 3 = .ok (some s) ∧
      Reaches (World.step (.rw true) s swapAndTraverse) (World.start s swapAndTraverse) w ∧
      w.queued 0 = true ∧
      (w.held 0 = [] ∧ 1 = s.first ∨ w.held 0 ≠ [] ∧ ∃ chain front back,
        Chain w.next s.first chain ∧ s.first :: chain = front ++ w.held 0 ++ 1 :: back) ∧
      ∀ t, ¬ Relation.TransGen (w.Waits (.rw true) s swapAndTraverse) t t := by
  have ran : ((storageInit (.rw true) ⟨id, fun _ => true, fun _ => true⟩ 3).toOption.join.bind
      fun s => (run (World.step (.rw true) s swapAndTraverse) (World.start s swapAndTraverse)
        (List.replicate 4 (1, 0) ++ List.replicate 4 (0, 1))).map fun w => (w.queued 0, w.pc 0)) =
      some (true, .swap (.lockA 1 1)) := by
    decide +kernel
  obtain ⟨s, w, built, reached, seen⟩ := exists_reaches ran
  obtain ⟨asleep, point⟩ := Prod.mk.inj seen
  obtain ⟨segment, _, acyclic⟩ := no_deadlock (storageInit_lists built) reached
  refine ⟨s, w, built, reached, asleep, segment 0 0 1 (.swap (.loop 1 0 s.first 1)) ?_, acyclic⟩
  rw [point]
  rfl

/-- In every reachable state some thread is not blocked. -/
theorem exists_not_blocked [Nonempty τ] (listed : s.Lists data)
    (reached : Reaches (World.step v s roles) (World.start s roles) w) :
    ∃ t, ¬ w.Blocked v s roles t := by
  obtain ⟨placed, sound⟩ := invariants listed reached
  obtain ⟨t, last⟩ := Finite.exists_max (w.rank s roles data)
  by_cases blocked : w.Blocked v s roles t
  · obtain ⟨u, waits⟩ := blocked.waits
    refine ⟨u, fun also => ?_⟩
    obtain ⟨u', onward⟩ := also.waits
    have later := placed.rank_lt sound (counted reached) waits onward
    exact absurd (last u) (Nat.not_le.mpr later)
  · exact ⟨t, blocked⟩

end OperationSystems.NodeList
