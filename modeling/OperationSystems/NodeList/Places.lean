import OperationSystems.Foundation.HandOverHand
import OperationSystems.NodeList.Threads

/-!
# What a thread relies on at each point

A point of `traverse_list` or `do_random_swap` says which nodes the thread holds, which
pointer it has read and still relies on, how many nodes it has locked since the sentinel,
and, between the stores of a swap, which pointers differ from the list. `Located` joins
these; it only speaks of nodes the thread holds, so the steps of the others keep it.
-/

namespace OperationSystems.NodeList

open HandOverHand

/-! ## Traversals -/

namespace TraversePc

/-- The nodes held, in the order in which they were locked. -/
def holds (first : Node) : TraversePc → List Node
  | .lockFirst => []
  | .readFirst => [first]
  | .unlockEmpty => [first]
  | .lockA _ => [first]
  | .unlockFirst a => [first, a]
  | .readNext a => [a]
  | .lockB a _ => [a]
  | .evaluate a b => [a, b]
  | .countPair a b _ => [a, b]
  | .unlockA a b => [a, b]
  | .unlockLast a => [a]
  | .countIteration _ => []

/-- The thread is on its way along the list. -/
def walks : TraversePc → Bool
  | .lockFirst => false
  | .countIteration _ => false
  | _ => true

/-- The node whose `next` was read, and what it was. -/
def expects (first : Node) : TraversePc → Option (Node × Option Node)
  | .unlockEmpty => some (first, none)
  | .lockA a => some (first, some a)
  | .lockB a b => some (a, some b)
  | .unlockLast a => some (a, none)
  | _ => none

end TraversePc

/-! ## Swaps -/

namespace SwapPc

/-- The nodes held, in the order in which they were locked. -/
def holds (first : Node) : SwapPc → List Node
  | .start => []
  | .lockFirst _ => []
  | .readFirst _ => [first]
  | .missingA => [first]
  | .lockA _ _ => [first]
  | .loop _ _ prev a => [prev, a]
  | .broken _ prev a => [prev, a]
  | .lockNext _ _ prev a _ => [prev, a]
  | .unlockPrev _ _ prev a node => [prev, a, node]
  | .readB _ prev a => [prev, a]
  | .missingB prev a => [prev, a]
  | .missingPrev prev => [prev]
  | .lockB _ prev a _ => [prev, a]
  | .compare _ prev a b => [prev, a, b]
  | .storePrev _ prev a b => [prev, a, b]
  | .loadNext _ prev a b => [prev, a, b]
  | .storeA _ prev a b _ => [prev, a, b]
  | .storeB _ prev a b => [prev, a, b]
  | .count prev a b _ => [prev, a, b]
  | .unlockB prev a b => [prev, a, b]
  | .unlockA prev a => [prev, a]
  | .unlockLast prev => [prev]

/-- The thread is on its way along the list: it has neither exchanged nodes nor begun to
give up its last ones. -/
def walks : SwapPc → Bool
  | .start => false
  | .lockFirst _ => false
  | .count _ _ _ _ => false
  | .unlockB _ _ _ => false
  | .unlockA _ _ => false
  | .unlockLast _ => false
  | _ => true

/-- The node whose `next` was read, and what it was. -/
def expects (first : Node) : SwapPc → Option (Node × Option Node)
  | .lockA _ a => some (first, some a)
  | .lockNext _ _ _ a node => some (a, some node)
  | .lockB _ _ a b => some (a, some b)
  | .storeA _ _ _ b node => some (b, node)
  | _ => none

/-- The nodes whose `next` is not that of the list, between the stores of a swap. -/
def disturbed : SwapPc → List Node
  | .loadNext _ prev _ _ => [prev]
  | .storeA _ prev _ _ _ => [prev]
  | .storeB _ prev a _ => [prev, a]
  | _ => []

/-- The node that a swap between its first and its last store has taken out of the chain. -/
def hidden : SwapPc → Option Node
  | .loadNext _ _ a _ => some a
  | .storeA _ _ a _ _ => some a
  | .storeB _ _ a _ => some a
  | _ => none

/-- How far the call has come: its index is one of the list, the loop variable counts the
nodes passed, and the exits for a missing node are not taken. -/
def Reckoned (count walked : ℕ) : SwapPc → Prop
  | .lockFirst index => index + 2 ≤ count
  | .readFirst index => index + 2 ≤ count ∧ walked = 1
  | .missingA => False
  | .lockA index _ => index + 2 ≤ count ∧ walked = 1
  | .loop index i _ _ => index + 2 ≤ count ∧ i ≤ index ∧ walked = i + 2
  | .broken _ _ _ => False
  | .lockNext index i _ _ _ => index + 2 ≤ count ∧ i < index ∧ walked = i + 2
  | .unlockPrev index i _ _ _ => index + 2 ≤ count ∧ i < index ∧ walked = i + 3
  | .readB index _ _ => index + 2 ≤ count ∧ walked = index + 2
  | .missingB _ _ => False
  | .missingPrev _ => False
  | .lockB index _ _ _ => index + 2 ≤ count ∧ walked = index + 2
  | .compare index _ _ _ => index + 2 ≤ count ∧ walked = index + 3
  | .storePrev index _ _ _ => index + 2 ≤ count ∧ walked = index + 3
  | .loadNext index _ _ _ => index + 2 ≤ count ∧ walked = index + 3
  | .storeA index _ _ _ _ => index + 2 ≤ count ∧ walked = index + 3
  | .storeB index _ _ _ => index + 2 ≤ count ∧ walked = index + 3
  | _ => True

/-- What the stores have left in memory. -/
def Stored (order : List Node) (next : Node → Option Node) : SwapPc → Prop
  | .loadNext _ prev _ b => next prev = some b
  | .storeA _ prev _ b _ => next prev = some b
  | .storeB _ prev a b => next prev = some b ∧ Successor order b (next a)
  | _ => True

/-- The stores are made where the predicate holds. -/
def Needed (s : Storage) (needSwap : PairPredicate) : SwapPc → Prop
  | .storePrev _ _ a b => needSwap (s.value a).strlen (s.value b).strlen = true
  | .loadNext _ _ a b => needSwap (s.value a).strlen (s.value b).strlen = true
  | .storeA _ _ a b _ => needSwap (s.value a).strlen (s.value b).strlen = true
  | .storeB _ _ a b => needSwap (s.value a).strlen (s.value b).strlen = true
  | _ => True

end SwapPc

/-! ## All threads -/

namespace Pc

def holds (first : Node) : Pc → List Node
  | .traverse pc => pc.holds first
  | .swap pc => pc.holds first
  | .monitor _ => []

def walks : Pc → Bool
  | .traverse pc => pc.walks
  | .swap pc => pc.walks
  | .monitor _ => false

def expects (first : Node) : Pc → Option (Node × Option Node)
  | .traverse pc => pc.expects first
  | .swap pc => pc.expects first
  | .monitor _ => none

def disturbed : Pc → List Node
  | .swap pc => pc.disturbed
  | _ => []

def hidden : Pc → Option Node
  | .swap pc => pc.hidden
  | _ => none

def Reckoned (count walked : ℕ) : Pc → Prop
  | .swap pc => pc.Reckoned count walked
  | _ => True

def Stored (order : List Node) (next : Node → Option Node) : Pc → Prop
  | .swap pc => pc.Stored order next
  | _ => True

end Pc

/-- The point is one of the function that the role runs. -/
def Role.Runs (s : Storage) : Role → Pc → Prop
  | .traverse .., .traverse _ => True
  | .swap needSwap _, .swap pc => pc.Needed s needSwap
  | .monitor, .monitor _ => True
  | _, _ => False

/-- What is true of a thread, given the list, the memory, what it holds and what it has
locked since the sentinel. -/
structure Located (s : Storage) (role : Role) (order : List Node) (next : Node → Option Node)
    (held visited : List Node) (pc : Pc) : Prop where
  runs : role.Runs s pc
  held : held = pc.holds s.first
  expects : ∀ x after, pc.expects s.first = some (x, after) → Successor order x after
  reckoned : pc.Reckoned s.count visited.length
  stored : pc.Stored order next

variable {s : Storage} {role : Role} {order order' : List Node} {next next' : Node → Option Node}
  {held visited : List Node} {pc : Pc}

/-- A thread at its beginning holds nothing. -/
theorem Located.begin (role : Role) (visited : List Node) :
    Located s role order next [] visited role.begin := by
  cases role with
  | traverse matchPred iterCounter pairsCounter =>
      exact ⟨trivial, rfl, by simp [Role.begin, Pc.expects, TraversePc.expects], trivial, trivial⟩
  | swap needSwap swapCounter =>
      exact ⟨trivial, rfl, by simp [Role.begin, Pc.expects, SwapPc.expects], trivial, trivial⟩
  | monitor => exact ⟨trivial, rfl, by simp [Role.begin, Pc.expects], trivial, trivial⟩

theorem Pc.disturbed_subset (first : Node) (pc : Pc) : pc.disturbed ⊆ pc.holds first := by
  intro x member
  cases pc with
  | swap pc =>
      cases pc with
      | storeB index prev a b =>
          obtain rfl | rfl : x = prev ∨ x = a := by
            simpa [Pc.disturbed, SwapPc.disturbed] using member
          · exact List.mem_cons_self
          · exact List.mem_cons_of_mem _ List.mem_cons_self
      | _ => simp_all [Pc.disturbed, SwapPc.disturbed, Pc.holds, SwapPc.holds]
  | traverse pc => simp [Pc.disturbed] at member
  | monitor pc => simp [Pc.disturbed] at member

/-- Only a writer takes a node out. -/
theorem Role.writes_of_disturbed {x : Node} (runs : role.Runs s pc) (member : x ∈ pc.disturbed) :
    role.writes = true := by
  cases pc with
  | swap pc =>
      cases role with
      | swap => rfl
      | traverse => exact runs.elim
      | monitor => exact runs.elim
  | traverse pc => simp [Pc.disturbed] at member
  | monitor pc => simp [Pc.disturbed] at member

/-- What a thread expects to follow, follows a node that it holds. -/
theorem Pc.expects_mem {first x : Node} {after : Option Node}
    (expected : pc.expects first = some (x, after)) : x ∈ pc.holds first := by
  cases pc with
  | swap pc => cases pc <;> simp_all [Pc.expects, SwapPc.expects, Pc.holds, SwapPc.holds]
  | traverse pc =>
      cases pc <;> simp_all [Pc.expects, TraversePc.expects, Pc.holds, TraversePc.holds]
  | monitor pc => simp [Pc.expects] at expected

/-- **Frame.** What changes at nodes that the thread does not hold changes nothing for it. -/
theorem Located.frame (located : Located s role order next held visited pc)
    (kept : ∀ x ∈ held, next' x = next x ∧
      ∀ after, Successor order x after → Successor order' x after) :
    Located s role order' next' held visited pc := by
  refine ⟨located.runs, located.held, ?_, located.reckoned, ?_⟩
  · intro x after expected
    have member : x ∈ held := located.held ▸ Pc.expects_mem expected
    exact (kept x member).2 after (located.expects x after expected)
  · have stored := located.stored
    have holds := located.held
    cases pc with
    | swap pc =>
        cases pc with
        | loadNext index prev a b =>
            exact (kept prev (by simp [holds, Pc.holds, SwapPc.holds])).1.trans stored
        | storeA index prev a b node =>
            exact (kept prev (by simp [holds, Pc.holds, SwapPc.holds])).1.trans stored
        | storeB index prev a b =>
            have atPrev := kept prev (by simp [holds, Pc.holds, SwapPc.holds])
            have atA := kept a (by simp [holds, Pc.holds, SwapPc.holds])
            have atB := kept b (by simp [holds, Pc.holds, SwapPc.holds])
            refine ⟨atPrev.1.trans stored.1, ?_⟩
            rw [atA.1]
            exact atB.2 _ stored.2
        | _ => trivial
    | traverse pc => trivial
    | monitor pc => trivial

end OperationSystems.NodeList
