import OperationSystems.Foundation.Transition
import OperationSystems.NodeList.Places

/-!
# The threads walk hand over hand

Every step of `traverse_list` and `do_random_swap` is an act of a walker on the list, or
leaves it alone. The list here is the initial one after the swaps completed so far; the
pointers in memory are those of this list, but for those that an unfinished swap has
already stored.
-/

namespace OperationSystems.NodeList

open HandOverHand LinkedCells Transition

/-- What a step with an effect means to the list, when it leads from one point to another:
which lock is taken and given up, and what is true of the thread afterwards. -/
def Turn (s : Storage) (role : Role) (order : List Node) (next : Node → Option Node)
    (held visited : List Node) (pc pc' : Pc) : Effect → Prop
  | .lock x =>
      (held = [] ∧ x = s.first ∨ pc.walks = true ∧
        ∃ before y, held = before ++ [y] ∧ Successor order y (some x)) ∧
      pc'.walks = true ∧ pc'.disturbed = pc.disturbed ∧
      Located s role order next (held ++ [x]) (if held = [] then [x] else visited ++ [x]) pc'
  | .unlock x =>
      (pc'.walks = false ∨ pc.walks = true ∧ pc'.walks = true ∧
        ∃ rest, held = x :: rest ∧ rest ≠ []) ∧
      pc'.disturbed = pc.disturbed ∧ Located s role order next (held.erase x) visited pc'
  | .store x node none =>
      role.writes = true ∧ x ∈ held ∧ x ∈ pc'.disturbed ∧ pc.disturbed ⊆ pc'.disturbed ∧
      pc'.walks = pc.walks ∧
      Located s role order (Function.update next x node) held visited pc'
  | .store x node (some index) =>
      role.writes = true ∧ (∃ prev a, node = some a ∧ pc = .swap (.storeB index prev a x)) ∧
      pc'.walks = false ∧ pc'.disturbed = [] ∧
      ∀ order' next', Located s role order' next' held visited pc'
  | _ =>
      (pc'.walks = pc.walks ∨ pc'.walks = false) ∧ pc'.disturbed = pc.disturbed ∧
      Located s role order next held visited pc'

section Turns

variable {s : Storage} {order : List Node} {next : Node → Option Node}
  {held visited : List Node} {counters : Counter → ℤ} {matchPred needSwap : PairPredicate}
  {iterCounter pairsCounter swapCounter : Counter}

theorem expects_of_none {expected : Option (Node × Option Node)} (none : expected = .none)
    (x : Node) (after : Option Node) (also : expected = some (x, after)) :
    Successor order x after := by
  rw [none] at also
  cases also

theorem expects_of_eq {expected : Option (Node × Option Node)} {y : Node} {read : Option Node}
    (same : expected = some (y, read)) (successor : Successor order y read) (x : Node)
    (after : Option Node) (also : expected = some (x, after)) : Successor order x after := by
  obtain ⟨rfl, rfl⟩ := Prod.mk.inj (Option.some.inj (same.symm.trans also))
  exact successor

theorem Located.traverse {pc : TraversePc} (holds : held = (Pc.traverse pc).holds s.first)
    (expects : ∀ x after, (Pc.traverse pc).expects s.first = some (x, after) →
      Successor order x after) :
    Located s (.traverse matchPred iterCounter pairsCounter) order next held visited
      (.traverse pc) :=
  ⟨trivial, holds, expects, trivial, trivial⟩

/-- Every step of `traverse_list`. -/
theorem traverseList_turn {pc : TraversePc}
    (located : Located s (.traverse matchPred iterCounter pairsCounter) order next held visited
      (.traverse pc))
    (sees : pc.walks = true → ∀ x ∈ held, Successor order x (next x)) :
    Turn s (.traverse matchPred iterCounter pairsCounter) order next held visited (.traverse pc)
      (.traverse (traverseList s matchPred iterCounter pairsCounter next counters pc).2)
      (traverseList s matchPred iterCounter pairsCounter next counters pc).1 := by
  have holds := located.held
  have expects := located.expects
  cases pc with
  | lockFirst =>
      exact ⟨.inl ⟨holds, rfl⟩, rfl, rfl, .traverse (by rw [holds]; rfl) (expects_of_none rfl)⟩
  | readFirst =>
      have successor := sees rfl s.first (by rw [holds]; exact List.mem_cons_self)
      cases read : next s.first with
      | none =>
          simp only [traverseList, read]
          exact ⟨.inl rfl, rfl, .traverse holds (expects_of_eq rfl (read ▸ successor))⟩
      | some a =>
          simp only [traverseList, read]
          exact ⟨.inl rfl, rfl, .traverse holds (expects_of_eq rfl (read ▸ successor))⟩
  | unlockEmpty =>
      have released : held.erase s.first = [] := by
        rw [holds]
        exact List.erase_cons_head _ _
      exact ⟨.inl rfl, rfl, .traverse released (expects_of_none rfl)⟩
  | lockA a =>
      exact ⟨.inr ⟨rfl, [], s.first, holds, expects _ _ rfl⟩, rfl, rfl,
        .traverse (by rw [holds]; rfl) (expects_of_none rfl)⟩
  | unlockFirst a =>
      exact ⟨.inr ⟨rfl, rfl, [a], holds, List.cons_ne_nil _ _⟩, rfl,
        .traverse (by rw [holds]; exact List.erase_cons_head _ _) (expects_of_none rfl)⟩
  | readNext a =>
      have successor := sees rfl a (by rw [holds]; exact List.mem_cons_self)
      cases read : next a with
      | none =>
          simp only [traverseList, read]
          exact ⟨.inl rfl, rfl, .traverse holds (expects_of_eq rfl (read ▸ successor))⟩
      | some b =>
          simp only [traverseList, read]
          exact ⟨.inl rfl, rfl, .traverse holds (expects_of_eq rfl (read ▸ successor))⟩
  | lockB a b =>
      exact ⟨.inr ⟨rfl, [], a, holds, expects _ _ rfl⟩, rfl, rfl,
        .traverse (by rw [holds]; rfl) (expects_of_none rfl)⟩
  | evaluate a b =>
      simp only [traverseList]
      split
      · exact ⟨.inl rfl, rfl, .traverse holds (expects_of_none rfl)⟩
      · exact ⟨.inl rfl, rfl, .traverse holds (expects_of_none rfl)⟩
  | countPair a b call =>
      cases call <;> exact ⟨.inl rfl, rfl, .traverse holds (expects_of_none rfl)⟩
  | unlockA a b =>
      exact ⟨.inr ⟨rfl, rfl, [b], holds, List.cons_ne_nil _ _⟩, rfl,
        .traverse (by rw [holds]; exact List.erase_cons_head _ _) (expects_of_none rfl)⟩
  | unlockLast a =>
      have released : held.erase a = [] := by
        rw [holds]
        exact List.erase_cons_head _ _
      exact ⟨.inl rfl, rfl, .traverse released (expects_of_none rfl)⟩
  | countIteration call =>
      cases call <;> exact ⟨.inl rfl, rfl, .traverse holds (expects_of_none rfl)⟩

theorem Located.swap {pc : SwapPc} (needed : pc.Needed s needSwap)
    (holds : held = pc.holds s.first)
    (expects : ∀ x after, pc.expects s.first = some (x, after) → Successor order x after)
    (reckoned : pc.Reckoned s.count visited.length) (stored : pc.Stored order next) :
    Located s (.swap needSwap swapCounter) order next held visited (.swap pc) :=
  ⟨needed, holds, expects, reckoned, stored⟩

/-- Every step of `do_random_swap`. The third condition says that who holds the last node
has locked them all. -/
theorem doRandomSwap_turn {pc : SwapPc} {rand : ℕ}
    (located : Located s (.swap needSwap swapCounter) order next held visited (.swap pc))
    (distinct : held.Nodup)
    (sees : pc.walks = true → ∀ x ∈ held, x ∉ pc.disturbed → Successor order x (next x))
    (ends : pc.walks = true → ∀ before y, held = before ++ [y] → Successor order y none →
      visited.length = s.count + 1) :
    Turn s (.swap needSwap swapCounter) order next held visited (.swap pc)
      (.swap (doRandomSwap s needSwap swapCounter rand next counters pc).2)
      (doRandomSwap s needSwap swapCounter rand next counters pc).1 := by
  have holds : held = pc.holds s.first := located.held
  have expects : ∀ x after, pc.expects s.first = some (x, after) → Successor order x after :=
    located.expects
  have needed : pc.Needed s needSwap := located.runs
  have reckoned : pc.Reckoned s.count visited.length := located.reckoned
  have stored : pc.Stored order next := located.stored
  cases pc with
  | start =>
      simp only [doRandomSwap]
      split
      · exact ⟨.inl rfl, rfl, .swap trivial holds (expects_of_none rfl) trivial trivial⟩
      · rename_i enough
        have small : rand % (s.count - 1) < s.count - 1 := Nat.mod_lt _ (by omega)
        have reckoned : rand % (s.count - 1) + 2 ≤ s.count := by omega
        exact ⟨.inl rfl, rfl, .swap trivial holds (expects_of_none rfl) reckoned trivial⟩
  | lockFirst index =>
      have entered : (if held = [] then [s.first] else visited ++ [s.first]) = [s.first] :=
        if_pos holds
      refine ⟨.inl ⟨holds, rfl⟩, rfl, rfl, ?_⟩
      rw [entered]
      exact .swap trivial (by rw [holds]; rfl) (expects_of_none rfl) ⟨reckoned, rfl⟩ trivial
  | readFirst index =>
      have successor := sees rfl s.first (by rw [holds]; exact List.mem_cons_self) List.not_mem_nil
      cases read : next s.first with
      | none =>
          have all := ends rfl [] s.first holds (read ▸ successor)
          have := reckoned
          simp only [SwapPc.Reckoned] at this
          omega
      | some a =>
          simp only [doRandomSwap, read]
          exact ⟨.inl rfl, rfl, .swap trivial holds (expects_of_eq rfl (read ▸ successor))
            reckoned trivial⟩
  | missingA => exact reckoned.elim
  | lockA index a =>
      have going : held ≠ [] := by simp [holds, SwapPc.holds]
      refine ⟨.inr ⟨rfl, [], s.first, holds, expects _ _ rfl⟩, rfl, rfl, ?_⟩
      rw [if_neg going]
      have reckoned : index + 2 ≤ s.count ∧ 0 ≤ index ∧ (visited ++ [a]).length = 0 + 2 := by
        simp [reckoned.1, reckoned.2]
      exact .swap trivial (by rw [holds]; rfl) (expects_of_none rfl) reckoned trivial
  | loop index i prev a =>
      have successor := sees rfl a (by rw [holds]; simp [SwapPc.holds]) List.not_mem_nil
      obtain ⟨bound, below, walked⟩ := reckoned
      simp only [doRandomSwap]
      split
      · rename_i further
        cases read : next a with
        | none =>
            have all := ends rfl [prev] a holds (read ▸ successor)
            omega
        | some node =>
            exact ⟨.inl rfl, rfl, .swap trivial holds (expects_of_eq rfl (read ▸ successor))
              ⟨bound, further, walked⟩ trivial⟩
      · have reckoned : index + 2 ≤ s.count ∧ visited.length = index + 2 :=
          ⟨bound, by omega⟩
        exact ⟨.inl rfl, rfl, .swap trivial holds (expects_of_none rfl) reckoned trivial⟩
  | broken index prev a => exact reckoned.elim
  | lockNext index i prev a node =>
      have going : held ≠ [] := by simp [holds, SwapPc.holds]
      refine ⟨.inr ⟨rfl, [prev], a, holds, expects _ _ rfl⟩, rfl, rfl, ?_⟩
      rw [if_neg going]
      have reckoned : index + 2 ≤ s.count ∧ i < index ∧ (visited ++ [node]).length = i + 3 := by
        simp [reckoned.1, reckoned.2.1, reckoned.2.2]
      exact .swap trivial (by rw [holds]; rfl) (expects_of_none rfl) reckoned trivial
  | unlockPrev index i prev a node =>
      have reckoned : index + 2 ≤ s.count ∧ i + 1 ≤ index ∧ visited.length = i + 1 + 2 :=
        reckoned
      have released : held.erase prev = [a, node] := by
        rw [holds]
        exact List.erase_cons_head _ _
      exact ⟨.inr ⟨rfl, rfl, [a, node], holds, List.cons_ne_nil _ _⟩, rfl,
        .swap trivial released (expects_of_none rfl) reckoned trivial⟩
  | readB index prev a =>
      have successor := sees rfl a (by rw [holds]; simp [SwapPc.holds]) List.not_mem_nil
      cases read : next a with
      | none =>
          have all := ends rfl [prev] a holds (read ▸ successor)
          obtain ⟨bound, walked⟩ := reckoned
          omega
      | some b =>
          simp only [doRandomSwap, read]
          exact ⟨.inl rfl, rfl, .swap trivial holds (expects_of_eq rfl (read ▸ successor))
            reckoned trivial⟩
  | missingB prev a => exact reckoned.elim
  | missingPrev prev => exact reckoned.elim
  | lockB index prev a b =>
      have going : held ≠ [] := by simp [holds, SwapPc.holds]
      refine ⟨.inr ⟨rfl, [prev], a, holds, expects _ _ rfl⟩, rfl, rfl, ?_⟩
      rw [if_neg going]
      have reckoned : index + 2 ≤ s.count ∧ (visited ++ [b]).length = index + 3 := by
        simp [reckoned.1, reckoned.2]
      exact .swap trivial (by rw [holds]; rfl) (expects_of_none rfl) reckoned trivial
  | compare index prev a b =>
      simp only [doRandomSwap]
      split
      · rename_i needs
        exact ⟨.inl rfl, rfl, .swap needs holds (expects_of_none rfl) reckoned trivial⟩
      · exact ⟨.inr rfl, rfl, .swap trivial holds (expects_of_none rfl) trivial trivial⟩
  | storePrev index prev a b =>
      have stored : Function.update next prev (some b) prev = some b := Function.update_self ..
      exact ⟨rfl, by simp [holds, SwapPc.holds], List.mem_cons_self, List.nil_subset _, rfl,
        .swap needed holds (expects_of_none rfl) reckoned stored⟩
  | loadNext index prev a b =>
      have apart : b ∉ [prev] := by
        rw [holds] at distinct
        simp only [SwapPc.holds, List.nodup_cons, List.mem_cons] at distinct
        simp only [List.mem_singleton]
        exact fun same => distinct.1 (.inr (.inl same.symm))
      have successor := sees rfl b (by rw [holds]; simp [SwapPc.holds]) apart
      exact ⟨.inl rfl, rfl,
        .swap needed holds (expects_of_eq rfl successor) reckoned stored⟩
  | storeA index prev a b node =>
      have apart : prev ≠ a := by
        rw [holds] at distinct
        exact fun same => (List.nodup_cons.mp distinct).1 (by simp [same])
      have stored : Function.update next a node prev = some b ∧
          Successor order b (Function.update next a node a) := by
        rw [Function.update_of_ne apart, Function.update_self]
        exact ⟨stored, expects _ _ rfl⟩
      exact ⟨rfl, by simp [holds, SwapPc.holds], List.mem_cons_of_mem _ List.mem_cons_self,
        List.cons_subset_cons _ (List.nil_subset _), rfl,
        .swap needed holds (expects_of_none rfl) reckoned stored⟩
  | storeB index prev a b =>
      exact ⟨rfl, ⟨prev, a, rfl, rfl⟩, rfl, rfl,
        fun _ _ => .swap trivial holds (expects_of_none rfl) trivial trivial⟩
  | count prev a b call =>
      cases call <;>
        exact ⟨.inl rfl, rfl, .swap trivial holds (expects_of_none rfl) trivial trivial⟩
  | unlockB prev a b =>
      have released : held.erase b = [prev, a] := by
        rw [holds] at distinct ⊢
        simp only [SwapPc.holds, List.nodup_cons, List.mem_cons] at distinct
        have one : prev ≠ b := fun same => distinct.1 (.inr (.inl same))
        have two : a ≠ b := fun same => distinct.2.1 (.inl same)
        simp only [SwapPc.holds]
        rw [List.erase_cons_tail (by simpa using one), List.erase_cons_tail (by simpa using two),
          List.erase_cons_head]
      exact ⟨.inl rfl, rfl, .swap trivial released (expects_of_none rfl) trivial trivial⟩
  | unlockA prev a =>
      have released : held.erase a = [prev] := by
        rw [holds] at distinct ⊢
        have one : prev ≠ a := fun same => (List.nodup_cons.mp distinct).1 (by simp [same])
        simp only [SwapPc.holds]
        rw [List.erase_cons_tail (by simpa using one), List.erase_cons_head]
      exact ⟨.inl rfl, rfl, .swap trivial released (expects_of_none rfl) trivial trivial⟩
  | unlockLast prev =>
      have released : held.erase prev = [] := by
        rw [holds]
        exact List.erase_cons_head _ _
      exact ⟨.inl rfl, rfl, .swap trivial released (expects_of_none rfl) trivial trivial⟩

/-- Every step of `thread_monitor`. -/
theorem monitor_turn {pc : MonitorPc}
    (located : Located s .monitor order next held visited (.monitor pc)) :
    Turn s .monitor order next held visited (.monitor pc) (.monitor (monitor counters pc).2)
      (monitor counters pc).1 := by
  have stays : ∀ pc', Located s .monitor order next held visited (.monitor pc') := by
    intro pc'
    exact ⟨trivial, located.held, (expects_of_none rfl), trivial, trivial⟩
  cases pc with
  | read values => exact ⟨.inl rfl, rfl, stays _⟩
  | _ => exact ⟨.inl rfl, rfl, stays _⟩

end Turns

/-! ## The whole system -/

variable {τ : Type*}

/-- The two threads cannot hold the lock of a node together. -/
def Conflicts (v : Variant) (roles : τ → Role) (t u : τ) : Prop :=
  v.conflict (roles t) (roles u) = true

theorem Conflicts.symm {v : Variant} {roles : τ → Role} (t u : τ)
    (conflicts : Conflicts v roles t u) : Conflicts v roles u t := by
  cases v with
  | mutex => rfl
  | rw readersWait =>
      change ((roles t).writes || (roles u).writes) = true at conflicts
      change ((roles u).writes || (roles t).writes) = true
      rwa [Bool.or_comm]

/-- Who locks for writing conflicts with everyone. -/
theorem Conflicts.of_writes {v : Variant} {roles : τ → Role} (u : τ) {t : τ}
    (writes : (roles t).writes = true) : Conflicts v roles u t := by
  cases v with
  | mutex => rfl
  | rw readersWait =>
      change ((roles u).writes || (roles t).writes) = true
      rw [writes, Bool.or_true]

namespace World

/-- The initial list after the swaps completed so far. -/
def listed (data : List Node) (w : World τ) : List Node :=
  w.swapped.foldl (fun list entry => exchange entry.2 list) data

/-- The list with its sentinel. -/
def order (s : Storage) (data : List Node) (w : World τ) : List Node := s.first :: w.listed data

/-- The threads as walkers. -/
def view (s : Storage) (data : List Node) (w : World τ) : State τ Node where
  order := w.order s data
  held := w.held
  walked := w.visited
  walking := fun t => (w.pc t).walks

/-- The swaps permute the list. -/
theorem listed_perm (data : List Node) (w : World τ) : (w.listed data).Perm data := by
  unfold listed
  induction w.swapped generalizing data with
  | nil => exact .refl _
  | cons entry log ih => exact (ih _).trans (exchange_perm _ _)

end World

/-- Every thread is located, and the pointers are those of the list except where a swap
has begun to store. -/
structure Placed (s : Storage) (roles : τ → Role) (data : List Node) (w : World τ) : Prop where
  located : ∀ t, Located s (roles t) (w.order s data) w.next (w.held t) (w.visited t) (w.pc t)
  linked : ∀ x after, Successor (w.order s data) x after → (∀ u, x ∉ (w.pc u).disturbed) →
    w.next x = after

variable {v : Variant} {s : Storage} {roles : τ → Role} {data : List Node}
  {w next : World τ} {t : τ} {pc' : Pc}

/-- What a walker reads from a node it holds is the list's, unless it has itself stored
there. -/
theorem Placed.sees (placed : Placed s roles data w)
    (sound : Sound (Conflicts v roles) (w.view s data)) (walks : (w.pc t).walks = true)
    {x : Node} (held : x ∈ w.held t) (own : x ∉ (w.pc t).disturbed) :
    Successor (w.order s data) x (w.next x) := by
  have undisturbed : ∀ u, x ∉ (w.pc u).disturbed := by
    intro u member
    by_cases self : u = t
    · exact own (self ▸ member)
    · have theirs : x ∈ w.held u := by
        rw [(placed.located u).held]
        exact Pc.disturbed_subset s.first _ member
      have writes := Role.writes_of_disturbed (placed.located u).runs member
      exact sound.apart t u (Ne.symm self) (.of_writes t writes) held theirs
  obtain ⟨after, successor⟩ := exists_successor (sound.subset walks held)
  rw [placed.linked x after successor undisturbed]
  exact successor

/-- A walker at the end of the list has visited all its nodes. -/
theorem Placed.ends (sound : Sound (Conflicts v roles) (w.view s data))
    (listed : s.Lists data) (walks : (w.pc t).walks = true) {before : List Node} {y : Node}
    (last : w.held t = before ++ [y]) (successor : Successor (w.order s data) y none) :
    (w.visited t).length = s.count + 1 := by
  have perm := (sound.underway t walks).perm sound.nodup last successor
  have length : (w.visited t).length = (w.order s data).length := perm.length_eq
  rw [length, listed.count]
  exact congrArg Nat.succ (w.listed_perm data).length_eq

/-- What the code of a thread makes of its step. -/
theorem Placed.turn {rand : ℕ} {effect : Effect} (placed : Placed s roles data w)
    (sound : Sound (Conflicts v roles) (w.view s data)) (listed : s.Lists data)
    (coded : w.code s rand (roles t) (w.pc t) = some (effect, pc')) :
    Turn s (roles t) (w.order s data) w.next (w.held t) (w.visited t) (w.pc t) pc' effect := by
  have distinct := sound.distinct t
  exact World.code_cases
    (motive := fun role pc effect pc' =>
      Located s role (w.order s data) w.next (w.held t) (w.visited t) pc →
        (pc.walks = true → ∀ x ∈ w.held t, x ∉ pc.disturbed →
          Successor (w.order s data) x (w.next x)) →
        (pc.walks = true → ∀ before y, w.held t = before ++ [y] →
          Successor (w.order s data) y none → (w.visited t).length = s.count + 1) →
        Turn s role (w.order s data) w.next (w.held t) (w.visited t) pc pc' effect)
    (fun _ _ _ _ located sees _ => traverseList_turn located fun walks x held =>
      sees walks x held List.not_mem_nil)
    (fun _ _ _ located sees ends => doRandomSwap_turn located distinct sees ends)
    (fun _ located _ _ => monitor_turn located) coded (placed.located t)
    (fun walks _ held own => placed.sees sound walks held own)
    (fun walks _ _ last successor => Placed.ends sound listed walks last successor)

/-- Where a walker is that holds three nodes and has locked `index` others before: these
stand in front of the three. -/
theorem Placed.site_of_held (sound : Sound (Conflicts v roles) (w.view s data)) {index : ℕ}
    {prev a b : Node} (walks : (w.pc t).walks = true) (held : w.held t = [prev, a, b])
    (walked : (w.visited t).length = index + 3) :
    ∃ front back, w.order s data = front ++ prev :: a :: b :: back ∧ front.length = index := by
  obtain ⟨_, front, back, behind, split, passed, perm⟩ := sound.underway t walks
  change w.order s data = front ++ w.held t ++ back at split
  change w.visited t = behind ++ w.held t at passed
  refine ⟨front, back, ?_, ?_⟩
  · rw [split, held]
    simp
  · have length := perm.length_eq
    rw [passed, held] at walked
    simp at walked
    omega

/-- Where a swap is before its last store: its three nodes stand behind `index` others. -/
theorem Placed.site (placed : Placed s roles data w)
    (sound : Sound (Conflicts v roles) (w.view s data)) {index : ℕ} {prev a b : Node}
    (point : w.pc t = .swap (.storeB index prev a b)) :
    ∃ front back, w.order s data = front ++ prev :: a :: b :: back ∧ front.length = index := by
  have located := placed.located t
  have held : w.held t = [prev, a, b] := by
    rw [located.held, point]
    rfl
  have walked : index + 2 ≤ s.count ∧ (w.visited t).length = index + 3 := by
    have reckoned := located.reckoned
    rwa [point] at reckoned
  have walks : (w.pc t).walks = true := by
    rw [point]
    rfl
  exact Placed.site_of_held sound walks held walked.2

/-- On a chain the pointers say what follows. -/
theorem next_of_chain {memory : Node → Option Node} {first : Node}
    (chain : Chain memory first data) {x : Node} {after : Option Node}
    (successor : Successor (first :: data) x after) : memory x = after := by
  obtain ⟨front, back, split, rfl⟩ := successor
  induction front generalizing first data with
  | nil =>
      obtain ⟨rfl, rfl⟩ := List.cons.inj split
      cases data with
      | nil => exact Option.some.inj chain
      | cons y data => exact Option.some.inj chain.1
  | cons y front ih =>
      obtain ⟨rfl, rfl⟩ := List.cons.inj split
      cases front with
      | nil => exact ih chain.2 rfl
      | cons z front => exact ih chain.2 rfl

/-- A chain does not come back to where it starts. -/
theorem Storage.Lists.nodup (listed : s.Lists data) : (s.first :: data).Nodup := by
  refine List.nodup_cons.mpr ⟨fun again => ?_, listed.chain.nodup⟩
  obtain ⟨before, after, rfl⟩ := List.append_of_mem again
  have twice := Path.unique listed.chain listed.chain.drop
  have lengths := congrArg List.length twice
  simp at lengths
  omega

theorem placed_start (listed : s.Lists data) : Placed s roles data (World.start s roles) where
  located := fun t => .begin (roles t) []
  linked := fun _ _ successor _ => next_of_chain listed.chain successor

/-- Nobody has locked anything. -/
theorem sound_start (listed : s.Lists data) :
    Sound (Conflicts v roles) ((World.start s roles).view s data) := by
  refine .start listed.nodup (fun t => rfl) fun t => ?_
  change (roles t).begin.walks = false
  cases roles t <;> rfl

variable [DecidableEq τ]

theorem walks_update (pcs : τ → Pc) (t : τ) (pc : Pc) :
    (fun u => (Function.update pcs t pc u).walks) =
      Function.update (fun u => (pcs u).walks) t pc.walks :=
  Function.comp_update Pc.walks pcs t pc

/-- Where the list is the same, the others stay located if what changed in memory is held
by nobody else, and the pointers stay linked if who stored says so. -/
theorem Placed.keep (placed : Placed s roles data w) (swapped : next.swapped = w.swapped)
    (pcs : next.pc = Function.update w.pc t pc')
    (others : ∀ u, u ≠ t → next.held u = w.held u ∧ next.visited u = w.visited u ∧
      ∀ x ∈ w.held u, next.next x = w.next x)
    (own : Located s (roles t) (w.order s data) next.next (next.held t) (next.visited t) pc')
    (grown : (w.pc t).disturbed ⊆ pc'.disturbed)
    (stored : ∀ x, x ∉ pc'.disturbed → next.next x = w.next x) : Placed s roles data next := by
  have order : next.order s data = w.order s data := by
    unfold World.order World.listed
    rw [swapped]
  refine ⟨fun u => ?_, fun x after successor undisturbed => ?_⟩
  · rw [order, pcs]
    by_cases self : u = t
    · subst self
      rw [Function.update_self]
      exact own
    · obtain ⟨held, visited, same⟩ := others u self
      rw [Function.update_of_ne self, held, visited]
      exact (placed.located u).frame fun x member => ⟨same x member, fun _ => id⟩
  · rw [order] at successor
    rw [pcs] at undisturbed
    have own := undisturbed t
    rw [Function.update_self] at own
    rw [stored x own]
    refine placed.linked x after successor fun u member => ?_
    by_cases self : u = t
    · exact own (grown (self ▸ member))
    · apply undisturbed u
      rwa [Function.update_of_ne self]

/-- A step that neither locks nor stores: the thread goes on, or stops walking. -/
theorem Placed.quiet (placed : Placed s roles data w)
    (pcs : next.pc = Function.update w.pc t pc')
    (fields : next.next = w.next ∧ next.held = w.held ∧ next.visited = w.visited ∧
      next.swapped = w.swapped)
    (walks : pc'.walks = (w.pc t).walks ∨ pc'.walks = false)
    (disturbed : pc'.disturbed = (w.pc t).disturbed)
    (own : Located s (roles t) (w.order s data) w.next (w.held t) (w.visited t) pc') :
    Placed s roles data next ∧ (next.view s data = w.view s data ∨
      Move (Conflicts v roles) (w.view s data) (next.view s data)) := by
  obtain ⟨memory, held, visited, swapped⟩ := fields
  have own : Located s (roles t) (w.order s data) next.next (next.held t) (next.visited t) pc' := by
    rwa [memory, held, visited]
  refine ⟨placed.keep swapped pcs ?_ own (disturbed ▸ List.Subset.refl _) ?_, ?_⟩
  · intro u _
    exact ⟨congrFun held u, congrFun visited u, fun x _ => congrFun memory x⟩
  · intro x _
    exact congrFun memory x
  · unfold World.view World.order World.listed
    rw [held, visited, swapped, pcs, walks_update]
    obtain same | stopped := walks
    · refine .inl ?_
      rw [same, Function.update_eq_self]
    · refine .inr ?_
      have left : Move (Conflicts v roles) (w.view s data) _ := .leave t (w.held t)
        (List.Sublist.refl _)
      rw [World.view, Function.update_eq_self] at left
      rw [stopped]
      exact left

/-- Locking a node is an act of the walker. -/
theorem Placed.lock (placed : Placed s roles data w) {x : Node}
    (free : Free (Conflicts v roles) (w.view s data) t x)
    (turn : Turn s (roles t) (w.order s data) w.next (w.held t) (w.visited t) (w.pc t) pc'
      (.lock x)) :
    Placed s roles data ((w.acquire t x).goto t pc') ∧
      (((w.acquire t x).goto t pc').view s data = w.view s data ∨
        Move (Conflicts v roles) (w.view s data) (((w.acquire t x).goto t pc').view s data)) := by
  obtain ⟨place, walks, disturbed, own⟩ := turn
  refine ⟨placed.keep rfl rfl ?_ ?_ (disturbed ▸ List.Subset.refl _) (fun _ _ => rfl), .inr ?_⟩
  · intro u away
    exact ⟨Function.update_of_ne away _ _, Function.update_of_ne away _ _, fun _ _ => rfl⟩
  · simpa only [World.goto, World.acquire, Function.update_self] using own
  · unfold World.view World.goto World.acquire
    rw [walks_update, walks]
    obtain ⟨none, rfl⟩ | ⟨walking, before, y, last, successor⟩ := place
    · have entered : Move (Conflicts v roles) (w.view s data) _ := .enter t s.first
        (w.listed data) none rfl free
      rwa [if_pos none, none]
    · have going : w.held t ≠ [] := by
        rw [last]
        exact List.append_ne_nil_of_right_ne_nil _ (List.cons_ne_nil _ _)
      have further : Move (Conflicts v roles) (w.view s data) _ := .advance t x y
        before walking last successor free
      rw [if_neg going]
      have same : Function.update (fun u => (w.pc u).walks) t true = fun u => (w.pc u).walks := by
        rw [← walking, Function.update_eq_self]
      rw [same]
      exact further

/-- So is unlocking one. -/
theorem Placed.unlock (placed : Placed s roles data w) {x : Node}
    (turn : Turn s (roles t) (w.order s data) w.next (w.held t) (w.visited t) (w.pc t) pc'
      (.unlock x)) :
    Placed s roles data ((w.release t x).goto t pc') ∧
      (((w.release t x).goto t pc').view s data = w.view s data ∨
        Move (Conflicts v roles) (w.view s data) (((w.release t x).goto t pc').view s data)) := by
  obtain ⟨place, disturbed, own⟩ := turn
  refine ⟨placed.keep rfl rfl ?_ ?_ (disturbed ▸ List.Subset.refl _) (fun _ _ => rfl), .inr ?_⟩
  · intro u away
    exact ⟨Function.update_of_ne away _ _, rfl, fun _ _ => rfl⟩
  · simpa only [World.goto, World.release, Function.update_self] using own
  · unfold World.view World.goto World.release
    rw [walks_update]
    obtain stopped | ⟨walking, walks, rest, held, some⟩ := place
    · rw [stopped]
      have left : Move (Conflicts v roles) (w.view s data) _ :=
        .leave t ((w.held t).erase x) List.erase_sublist
      exact left
    · have dropped : Move (Conflicts v roles) (w.view s data) _ := .drop t x rest
        walking held some
      have same : Function.update (fun u => (w.pc u).walks) t pc'.walks =
          fun u => (w.pc u).walks := by
        rw [walks, ← walking, Function.update_eq_self]
      have erased : (w.held t).erase x = rest := by
        rw [held, List.erase_cons_head]
      rw [same, erased]
      exact dropped

/-- A pointer store that does not complete a swap: nobody else holds the node. -/
theorem Placed.store (placed : Placed s roles data w)
    (sound : Sound (Conflicts v roles) (w.view s data)) {x : Node} {node : Option Node}
    (turn : Turn s (roles t) (w.order s data) w.next (w.held t) (w.visited t) (w.pc t) pc'
      (.store x node none)) :
    Placed s roles data ((w.store t x node none).goto t pc') ∧
      (((w.store t x node none).goto t pc').view s data = w.view s data ∨
        Move (Conflicts v roles) (w.view s data)
          (((w.store t x node none).goto t pc').view s data)) := by
  obtain ⟨writes, held, inside, grown, walks, own⟩ := turn
  have swapped : ((w.store t x node none).goto t pc').swapped = w.swapped := List.append_nil _
  refine ⟨placed.keep swapped rfl ?_ own grown ?_, .inl ?_⟩
  · intro u away
    refine ⟨rfl, rfl, fun y theirs => Function.update_of_ne ?_ _ _⟩
    rintro rfl
    exact sound.apart t u away.symm (.symm _ _ (.of_writes u writes)) held theirs
  · intro y outside
    refine Function.update_of_ne ?_ _ _
    rintro rfl
    exact outside inside
  · unfold World.view World.order World.listed
    rw [swapped]
    unfold World.goto World.store
    rw [walks_update, walks, Function.update_eq_self]

/-- The exchange of the two nodes behind the first one. -/
theorem exchange_site {order front back : List Node} {prev a b : Node} {index : ℕ}
    (split : order = front ++ prev :: a :: b :: back) (length : front.length = index) :
    exchange (index + 1) order = front ++ prev :: b :: a :: back := by
  have moved := exchange_append (front ++ [prev]) a b back
  rw [List.length_append, length] at moved
  simpa [split] using moved

/-- The last store of a swap exchanges two nodes of the list. -/
theorem World.order_complete (s : Storage) (data : List Node) (w : World τ) (t : τ) (x : Node)
    (node : Option Node) (index : ℕ) (pc' : Pc) :
    ((w.store t x node (some index)).goto t pc').order s data =
      exchange (index + 1) (w.order s data) := by
  unfold World.order World.listed
  change s.first :: List.foldl _ data (w.swapped ++ [(t, index)]) = _
  rw [List.foldl_append]
  rfl

/-- The store that completes a swap. -/
theorem Placed.link (placed : Placed s roles data w)
    (sound : Sound (Conflicts v roles) (w.view s data)) {x : Node} {node : Option Node} {index : ℕ}
    (turn : Turn s (roles t) (w.order s data) w.next (w.held t) (w.visited t) (w.pc t) pc'
      (.store x node (some index))) :
    Placed s roles data ((w.store t x node (some index)).goto t pc') ∧
      (((w.store t x node (some index)).goto t pc').view s data = w.view s data ∨
        Move (Conflicts v roles) (w.view s data)
          (((w.store t x node (some index)).goto t pc').view s data)) := by
  obtain ⟨writes, ⟨prev, a, rfl, point⟩, stopped, settled, own⟩ := turn
  obtain ⟨front, back, split, length⟩ := placed.site sound point
  have order := World.order_complete s data w t x (some a) index pc'
  rw [exchange_site split length] at order
  have held : w.held t = [prev, a, x] := by
    rw [(placed.located t).held, point]
    rfl
  have walks : (w.pc t).walks = true := by
    rw [point]
    rfl
  obtain ⟨linkedPrev, behind⟩ : w.next prev = some x ∧ Successor (w.order s data) x (w.next a) := by
    have stored := (placed.located t).stored
    rwa [point] at stored
  have moved : Move (Conflicts v roles) (w.view s data) _ := .exchange t prev a x front
    back walks held (fun u => .of_writes u writes) split
  have nodup : (front ++ prev :: x :: a :: back).Nodup := (sound.move Conflicts.symm moved).nodup
  have distinct : prev ≠ x ∧ a ≠ x := by
    have three := sound.distinct t
    change (w.held t).Nodup at three
    rw [held] at three
    simp only [List.nodup_cons, List.mem_cons] at three
    exact ⟨fun same => three.1 (.inr (.inl same)), fun same => three.2.1 (.inl same)⟩
  refine ⟨⟨fun u => ?_, fun y after successor undisturbed => ?_⟩, .inr ?_⟩
  · rw [order]
    by_cases self : u = t
    · subst self
      simp only [World.goto, Function.update_self]
      exact own _ _
    · simp only [World.goto, Function.update_of_ne self]
      refine (placed.located u).frame fun y theirs => ?_
      have apart : y ∉ [prev, a, x] := by
        rw [← held]
        intro mine
        exact sound.apart t u (Ne.symm self) (.symm _ _ (.of_writes u writes)) mine theirs
      refine ⟨Function.update_of_ne ?_ _ _, fun after successor => successor.exchange split apart⟩
      rintro rfl
      exact apart (by simp)
  · rw [order] at successor
    change Function.update w.next x (some a) y = after
    by_cases here : y ∈ [prev, a, x]
    · obtain rfl | rfl | rfl : y = prev ∨ y = a ∨ y = x := by simpa using here
      · rw [Function.update_of_ne distinct.1, linkedPrev]
        exact (Successor.of_append rfl).unique nodup successor
      · rw [Function.update_of_ne distinct.2]
        have was : w.order s data = (front ++ [prev, y]) ++ x :: back := by
          rw [split, List.append_assoc]
          rfl
        have now : front ++ prev :: x :: y :: back = (front ++ [prev, x]) ++ y :: back := by
          rw [List.append_assoc]
          rfl
        rw [← behind.head_eq sound.nodup was]
        exact successor.head_eq nodup now
      · rw [Function.update_self]
        have now : front ++ prev :: y :: a :: back = (front ++ [prev]) ++ y :: a :: back := by
          rw [List.append_assoc]
          rfl
        exact (Successor.of_append now).unique nodup successor
    · have away : y ≠ x := by
        rintro rfl
        exact here (by simp)
      rw [Function.update_of_ne away]
      have before : Successor (w.order s data) y after := by
        rw [split]
        refine successor.exchange rfl fun member => here ?_
        simp only [List.mem_cons] at member ⊢
        tauto
      refine placed.linked y after before fun u member => ?_
      by_cases self : u = t
      · subst self
        rw [point] at member
        apply here
        obtain rfl | rfl : y = prev ∨ y = a := by
          simpa [Pc.disturbed, SwapPc.disturbed] using member
        · simp
        · simp
      · apply undisturbed u
        simp only [World.goto, Function.update_of_ne self]
        exact member
  · unfold World.view at moved ⊢
    rw [order]
    unfold World.goto World.store
    rw [walks_update, stopped]
    exact moved

/-! ## Steps and runs -/

/-- **The step lemma.** Every thread stays in its place, and its step is an act of a walker
or invisible there. -/
theorem Placed.step [Fintype τ] (listed : s.Lists data) {label : τ × ℕ}
    (placed : Placed s roles data w) (sound : Sound (Conflicts v roles) (w.view s data))
    (moved : w.step v s roles label = some next) :
    Placed s roles data next ∧ (next.view s data = w.view s data ∨
      Move (Conflicts v roles) (w.view s data) (next.view s data)) := by
  obtain ⟨effect, pc', coded, performed⟩ := World.step_cases moved
  have turn := placed.turn sound listed coded
  cases effect with
  | silent =>
      obtain rfl := Option.some.inj performed
      exact placed.quiet rfl ⟨rfl, rfl, rfl, rfl⟩ turn.1 turn.2.1 turn.2.2
  | lock x =>
      obtain ⟨available, rfl⟩ | ⟨_, rfl⟩ := World.perform_lock performed
      · exact placed.lock (fun u _ conflicts => available.1 u conflicts) turn
      · exact placed.quiet (Function.update_eq_self _ _).symm ⟨rfl, rfl, rfl, rfl⟩ (.inl rfl) rfl
          (placed.located label.1)
  | unlock x =>
      obtain rfl := Option.some.inj performed
      exact placed.unlock turn
  | store x node completes =>
      obtain rfl := Option.some.inj performed
      cases completes with
      | none => exact placed.store sound turn
      | some index => exact placed.link sound turn
  | evaluate a b =>
      obtain rfl := Option.some.inj performed
      exact placed.quiet rfl ⟨rfl, rfl, rfl, rfl⟩ turn.1 turn.2.1 turn.2.2
  | lockCounters =>
      obtain ⟨_, rfl⟩ := World.perform_lockCounters performed
      exact placed.quiet rfl ⟨rfl, rfl, rfl, rfl⟩ turn.1 turn.2.1 turn.2.2
  | count p value =>
      obtain rfl := Option.some.inj performed
      exact placed.quiet rfl ⟨rfl, rfl, rfl, rfl⟩ turn.1 turn.2.1 turn.2.2
  | unlockCounters =>
      obtain rfl := Option.some.inj performed
      exact placed.quiet rfl ⟨rfl, rfl, rfl, rfl⟩ turn.1 turn.2.1 turn.2.2

/-- **The threads walk hand over hand.** Every step is an act of a walker or invisible
there. -/
theorem simulation [Fintype τ] (v : Variant) (roles : τ → Role) (listed : s.Lists data) :
    Simulation (World.step v s roles) (Placed s roles data) (World.view s data)
      (Move (Conflicts v roles)) (Sound (Conflicts v roles)) where
  simulates := fun _ _ _ placed sound moved => placed.step listed sound moved
  preserves := fun _ _ sound moved => sound.move Conflicts.symm moved

/-- **The run lemma.** Both invariants hold in every reachable state. -/
theorem invariants [Fintype τ] (listed : s.Lists data)
    (reached : Reaches (World.step v s roles) (World.start s roles) w) :
    Placed s roles data w ∧ Sound (Conflicts v roles) (w.view s data) :=
  (simulation v roles listed).invariant (placed_start listed) (sound_start listed) reached

/-- Any run is a run of walkers who exchange neighbours. -/
theorem refines [Fintype τ] (listed : s.Lists data)
    (reached : Reaches (World.step v s roles) (World.start s roles) w) :
    Relation.ReflTransGen (Move (Conflicts v roles)) ((World.start s roles).view s data)
      (w.view s data) :=
  (simulation v roles listed).reflTransGen (placed_start listed) (sound_start listed) reached

/-- A swapping and a traversing thread. -/
def swapAndTraverse : Fin 2 → Role
  | 0 => threadSwapDesc
  | 1 => threadEqual

/-- A completed run on a list that `storage_init` builds reaches its last state. -/
theorem exists_reaches [Fintype τ] {calls : Calls} {n : ℤ} {labels : List (τ × ℕ)} {Seen : Type*}
    {observe : World τ → Seen} {seen : Seen}
    (ran : ((storageInit v calls n).toOption.join.bind fun s =>
      (run (World.step v s roles) (World.start s roles) labels).map observe) = some seen) :
    ∃ s w, storageInit v calls n = .ok (some s) ∧
      Reaches (World.step v s roles) (World.start s roles) w ∧ observe w = seen := by
  obtain ⟨s, made, moved⟩ := Option.bind_eq_some_iff.mp ran
  obtain ⟨w, went, observed⟩ := Option.map_eq_some_iff.mp moved
  refine ⟨s, w, ?_, Reaches.of_run went .start, observed⟩
  cases result : storageInit v calls n with
  | error message =>
      rw [result] at made
      cases made
  | ok built =>
      rw [result] at made
      exact congrArg Except.ok made

end OperationSystems.NodeList
