import Mathlib.Data.Int.ModEq
import Mathlib.Algebra.Order.Group.Abs
import Mathlib.Algebra.Order.Group.Int
import OperationSystems.Foundation.Inversions
import OperationSystems.Foundation.Tally
import OperationSystems.NodeList.Counters
import OperationSystems.NodeList.Linearizable

/-!
# The swap counters account for the order of the list

A swap exchanges two neighbours, so it makes one inversion more or less, and its counter
says which. The counters lag behind the swaps by those that have been made and not yet been
counted.
-/

namespace OperationSystems.NodeList

open HandOverHand Inversions LinkedCells Tally Transition

/-- The counters that a thread increments. -/
def Role.counters : Role → List Counter
  | .traverse _ iterCounter pairsCounter => [iterCounter, pairsCounter]
  | .swap _ swapCounter => [swapCounter]
  | .monitor => []

/-- The counter of the swaps that a thread makes. -/
def Role.swaps : Role → Option Counter
  | .swap _ swapCounter => some swapCounter
  | _ => none

/-- The functions of the program. -/
def Role.OfProgram (role : Role) : Prop :=
  role = threadAsc ∨ role = threadDesc ∨ role = threadEqual ∨ role = threadSwapAsc ∨
    role = threadSwapDesc ∨ role = threadSwapEqual ∨ role = threadMonitor

def IncLong.counter : IncLong → Counter
  | .lock p => p
  | .load p => p
  | .store p _ => p
  | .unlock p => p

/-- The increment of the counter is still to come. -/
def IncLong.owes (c : Counter) : IncLong → ℕ
  | .unlock _ => 0
  | call => if call.counter = c then 1 else 0

/-- The swap that the thread has made and not yet counted. -/
def Pc.owes (c : Counter) : Pc → ℕ
  | .swap (.count _ _ _ call) => call.owes c
  | _ => 0

/-- The thread is not between the first pointer store of a swap and the increment of its
counter. -/
def Pc.settled : Pc → Bool
  | .swap (.loadNext _ _ _ _) => false
  | .swap (.storeA _ _ _ _ _) => false
  | .swap (.storeB _ _ _ _) => false
  | .swap (.count _ _ _ (.unlock _)) => true
  | .swap (.count _ _ _ _) => false
  | _ => true

/-- A settled thread owes no count. -/
theorem Pc.owes_of_settled {pc : Pc} (c : Counter) (settled : pc.settled = true) :
    pc.owes c = 0 := by
  cases pc with
  | swap pc =>
      cases pc with
      | count prev a b call =>
          cases call with
          | unlock p => rfl
          | _ => cases settled
      | _ => rfl
  | traverse pc => rfl
  | monitor pc => rfl

/-- Nor has it taken out a node. -/
theorem Pc.hidden_of_settled {pc : Pc} (settled : pc.settled = true) : pc.hidden = none := by
  cases pc with
  | swap pc =>
      cases pc with
      | loadNext index prev a b => cases settled
      | storeA index prev a b node => cases settled
      | storeB index prev a b => cases settled
      | _ => rfl
  | traverse pc => rfl
  | monitor pc => rfl

/-! ## What a step owes -/

/-- A thread counts on counters of its role only. -/
def Charged (role : Role) (pc : Pc) : Prop :=
  ∀ call, pc.call = some call → call.counter ∈ role.counters

/-- What a step with an effect means to the swaps that are not yet counted. -/
def Owes (role : Role) (pc pc' : Pc) : Effect → Prop
  | .count p _ => p ∈ role.counters ∧
      ∀ c, pc.owes c = pc'.owes c + if role.swaps = some c then 1 else 0
  | .store _ _ (some _) => ∀ c, pc'.owes c = pc.owes c + if role.swaps = some c then 1 else 0
  | _ => ∀ c, pc'.owes c = pc.owes c

section Code

variable {s : Storage} {next : Node → Option Node} {counters : Counter → ℤ}
  {matchPred needSwap : PairPredicate} {iterCounter pairsCounter swapCounter : Counter}

theorem owes_swap (c : Counter) : (if swapCounter = c then 1 else 0) =
    if (Role.swap needSwap swapCounter).swaps = some c then 1 else 0 := by
  by_cases same : swapCounter = c
  · have counts : (Role.swap needSwap swapCounter).swaps = some c := congrArg some same
    rw [if_pos same, if_pos counts]
  · have counts : (Role.swap needSwap swapCounter).swaps ≠ some c :=
      fun equal => same (Option.some.inj equal)
    rw [if_neg same, if_neg counts]

theorem Charged.of_none {role : Role} {pc : Pc} (none : pc.call = none) : Charged role pc := by
  intro call counting
  rw [none] at counting
  cases counting

theorem Charged.of_call {role : Role} {pc : Pc} {call : IncLong} (counting : pc.call = some call)
    (charged : call.counter ∈ role.counters) : Charged role pc := by
  intro other also
  rw [counting] at also
  exact Option.some.inj also ▸ charged

/-- A traversal owes swap counters nothing. -/
theorem traverseList_owes {pc : TraversePc}
    (charged : Charged (.traverse matchPred iterCounter pairsCounter) (.traverse pc)) :
    Owes (.traverse matchPred iterCounter pairsCounter) (.traverse pc)
        (.traverse (traverseList s matchPred iterCounter pairsCounter next counters pc).2)
        (traverseList s matchPred iterCounter pairsCounter next counters pc).1 ∧
      Charged (.traverse matchPred iterCounter pairsCounter)
        (.traverse (traverseList s matchPred iterCounter pairsCounter next counters pc).2) := by
  have iter : iterCounter ∈ (Role.traverse matchPred iterCounter pairsCounter).counters :=
    List.mem_cons_self
  have pairs : pairsCounter ∈ (Role.traverse matchPred iterCounter pairsCounter).counters :=
    List.mem_cons_of_mem _ List.mem_cons_self
  cases pc with
  | readFirst =>
      simp only [traverseList]
      split <;> exact ⟨fun _ => rfl, .of_none rfl⟩
  | unlockEmpty => exact ⟨fun _ => rfl, .of_call rfl iter⟩
  | readNext a =>
      simp only [traverseList]
      split <;> exact ⟨fun _ => rfl, .of_none rfl⟩
  | evaluate a b =>
      simp only [traverseList]
      split
      · exact ⟨fun _ => rfl, .of_call rfl pairs⟩
      · exact ⟨fun _ => rfl, .of_none rfl⟩
  | countPair a b call =>
      have mine := charged call rfl
      cases call with
      | lock p => exact ⟨fun _ => rfl, .of_call rfl mine⟩
      | load p => exact ⟨fun _ => rfl, .of_call rfl mine⟩
      | store p read => exact ⟨⟨mine, fun _ => rfl⟩, .of_call rfl mine⟩
      | unlock p => exact ⟨fun _ => rfl, .of_none rfl⟩
  | unlockLast a => exact ⟨fun _ => rfl, .of_call rfl iter⟩
  | countIteration call =>
      have mine := charged call rfl
      cases call with
      | lock p => exact ⟨fun _ => rfl, .of_call rfl mine⟩
      | load p => exact ⟨fun _ => rfl, .of_call rfl mine⟩
      | store p read => exact ⟨⟨mine, fun _ => rfl⟩, .of_call rfl mine⟩
      | unlock p => exact ⟨fun _ => rfl, .of_none rfl⟩
  | _ => exact ⟨fun _ => rfl, .of_none rfl⟩

/-- A swap owes its counter one from its stores to the count. -/
theorem doRandomSwap_owes {pc : SwapPc} (rand : ℕ)
    (charged : Charged (.swap needSwap swapCounter) (.swap pc)) :
    Owes (.swap needSwap swapCounter) (.swap pc)
        (.swap (doRandomSwap s needSwap swapCounter rand next counters pc).2)
        (doRandomSwap s needSwap swapCounter rand next counters pc).1 ∧
      Charged (.swap needSwap swapCounter)
        (.swap (doRandomSwap s needSwap swapCounter rand next counters pc).2) := by
  cases pc with
  | start =>
      simp only [doRandomSwap]
      split <;> exact ⟨fun _ => rfl, .of_none rfl⟩
  | readFirst index =>
      simp only [doRandomSwap]
      split <;> exact ⟨fun _ => rfl, .of_none rfl⟩
  | loop index i prev a =>
      simp only [doRandomSwap]
      split
      · split <;> exact ⟨fun _ => rfl, .of_none rfl⟩
      · exact ⟨fun _ => rfl, .of_none rfl⟩
  | readB index prev a =>
      simp only [doRandomSwap]
      split <;> exact ⟨fun _ => rfl, .of_none rfl⟩
  | compare index prev a b =>
      simp only [doRandomSwap]
      split <;> exact ⟨fun _ => rfl, .of_none rfl⟩
  | storeB index prev a b =>
      refine ⟨fun c => ?_, .of_call rfl List.mem_cons_self⟩
      exact (owes_swap c).trans (Nat.zero_add _).symm
  | count prev a b call =>
      have mine := charged call rfl
      cases call with
      | lock p => exact ⟨fun _ => rfl, .of_call rfl mine⟩
      | load p => exact ⟨fun _ => rfl, .of_call rfl mine⟩
      | store p read =>
          refine ⟨⟨mine, fun c => ?_⟩, .of_call rfl mine⟩
          obtain rfl : p = swapCounter := List.mem_singleton.mp mine
          exact (owes_swap c).trans (Nat.zero_add _).symm
      | unlock p => exact ⟨fun _ => rfl, .of_none rfl⟩
  | _ => exact ⟨fun _ => rfl, .of_none rfl⟩

/-- The monitor owes nothing. -/
theorem monitor_owes (pc : MonitorPc) :
    Owes .monitor (.monitor pc) (.monitor (monitor counters pc).2) (monitor counters pc).1 ∧
      Charged .monitor (.monitor (monitor counters pc).2) := by
  cases pc with
  | read values => exact ⟨fun _ => rfl, .of_none rfl⟩
  | _ => exact ⟨fun _ => rfl, .of_none rfl⟩

end Code

variable {τ : Type*} {v : Variant} {s : Storage} {roles : τ → Role} {data : List Node}
  {w next : World τ} {t : τ} {pc' : Pc} {effect : Effect}

theorem World.code_owes {rand : ℕ} (charged : Charged (roles t) (w.pc t))
    (coded : w.code s rand (roles t) (w.pc t) = some (effect, pc')) :
    Owes (roles t) (w.pc t) pc' effect ∧ Charged (roles t) pc' :=
  code_cases
    (motive := fun role pc effect pc' =>
      Charged role pc → Owes role pc pc' effect ∧ Charged role pc')
    (fun _ _ _ _ charged => traverseList_owes charged)
    (fun _ _ _ charged => doRandomSwap_owes rand charged) (fun pc _ => monitor_owes pc) coded
    charged

/-! ## The inversions -/

/-- The swaps made by threads that count them on this counter. -/
def World.made (roles : τ → Role) (w : World τ) (c : Counter) : ℕ :=
  w.swapped.countP fun entry => decide ((roles entry.1).swaps = some c)

/-- The length of the string of a node. -/
def Storage.len (s : Storage) (x : Node) : ℤ := (s.value x).strlen

/-- The inversions of the list are the initial ones, one less for each ascending and one
more for each descending swap, and either for each swap of unequal lengths. -/
structure Accounted (s : Storage) (roles : τ → Role) (data : List Node) (w : World τ) : Prop where
  swaps : ∀ entry ∈ w.swapped, roles entry.1 = threadSwapAsc ∨ roles entry.1 = threadSwapDesc ∨
    roles entry.1 = threadSwapEqual
  balance : ∃ e : ℤ, (inversions s.len (w.listed data) : ℤ) =
      inversions s.len data - w.made roles .ascSwaps + w.made roles .descSwaps + e ∧
    |e| ≤ w.made roles .equalSwaps ∧ e ≡ w.made roles .equalSwaps [ZMOD 2]

/-- One more swap, made by a thread that counts here or elsewhere. -/
theorem World.made_append (roles : τ → Role) {index : ℕ}
    (swapped : next.swapped = w.swapped ++ [(t, index)]) (c : Counter) : next.made roles c =
      w.made roles c + if (roles t).swaps = some c then 1 else 0 := by
  unfold World.made
  rw [swapped, List.countP_append, List.countP_singleton]
  simp only [decide_eq_true_eq]

/-- A program role that swaps. -/
theorem Role.OfProgram.swap {role : Role} (program : role.OfProgram) {needSwap : PairPredicate}
    {swapCounter : Counter} (swaps : role = .swap needSwap swapCounter) :
    role = threadSwapAsc ∨ role = threadSwapDesc ∨ role = threadSwapEqual := by
  subst swaps
  obtain same | same | same | same | same | same | same := program
  · cases same
  · cases same
  · cases same
  · exact .inl same
  · exact .inr (.inl same)
  · exact .inr (.inr same)
  · cases same

/-- One swap, by its kind. -/
theorem Accounted.complete (accounted : Accounted s roles data w) {index : ℕ} {a b : Node}
    {front back : List Node} (swapped : next.swapped = w.swapped ++ [(t, index)])
    (before : w.listed data = front ++ a :: b :: back)
    (after : next.listed data = front ++ b :: a :: back)
    (kind : roles t = threadSwapAsc ∧ s.len b < s.len a ∨
      roles t = threadSwapDesc ∧ s.len a < s.len b ∨
      roles t = threadSwapEqual ∧ s.len a ≠ s.len b) : Accounted s roles data next := by
  have made := fun c => World.made_append roles swapped c
  obtain ⟨e, sum, bound, parity⟩ := accounted.balance
  have bounds := abs_le.mp bound
  rw [before] at sum
  refine ⟨fun entry member => ?_, ?_⟩
  · rw [swapped] at member
    obtain old | rfl : entry ∈ w.swapped ∨ entry = (t, index) := by simpa using member
    · exact accounted.swaps entry old
    · exact kind.imp And.left (Or.imp And.left And.left)
  · rw [after]
    obtain ⟨role, greater⟩ | ⟨role, less⟩ | ⟨role, unequal⟩ := kind
    · have fewer := inversions_of_gt s.len greater front back
      have asc : next.made roles .ascSwaps = w.made roles .ascSwaps + 1 := by
        rw [made, role]
        rfl
      have desc : next.made roles .descSwaps = w.made roles .descSwaps := by
        rw [made, role]
        rfl
      have equal : next.made roles .equalSwaps = w.made roles .equalSwaps := by
        rw [made, role]
        rfl
      rw [asc, desc, equal]
      exact ⟨e, by omega, bound, parity⟩
    · have more := inversions_of_lt s.len less front back
      have asc : next.made roles .ascSwaps = w.made roles .ascSwaps := by
        rw [made, role]
        rfl
      have desc : next.made roles .descSwaps = w.made roles .descSwaps + 1 := by
        rw [made, role]
        rfl
      have equal : next.made roles .equalSwaps = w.made roles .equalSwaps := by
        rw [made, role]
        rfl
      rw [asc, desc, equal]
      exact ⟨e, by omega, bound, parity⟩
    · have asc : next.made roles .ascSwaps = w.made roles .ascSwaps := by
        rw [made, role]
        rfl
      have desc : next.made roles .descSwaps = w.made roles .descSwaps := by
        rw [made, role]
        rfl
      have equal : next.made roles .equalSwaps = w.made roles .equalSwaps + 1 := by
        rw [made, role]
        rfl
      rw [asc, desc, equal]
      unfold Int.ModEq at parity ⊢
      obtain less | greater := lt_or_gt_of_ne unequal
      · have more := inversions_of_lt s.len less front back
        exact ⟨e + 1, by omega, abs_le.mpr (by omega), by omega⟩
      · have fewer := inversions_of_gt s.len greater front back
        exact ⟨e - 1, by omega, abs_le.mpr (by omega), by omega⟩

/-- Nothing is accounted anew without a swap. -/
theorem Accounted.of_swapped (accounted : Accounted s roles data w)
    (swapped : next.swapped = w.swapped) : Accounted s roles data next := by
  have listed : next.listed data = w.listed data := by
    unfold World.listed
    rw [swapped]
  have made : ∀ c, next.made roles c = w.made roles c := fun c => congrArg _ swapped
  refine ⟨?_, ?_⟩
  · rw [swapped]
    exact accounted.swaps
  · rw [listed, made, made, made]
    exact accounted.balance

/-! ## The counters -/

/-- Only swaps are counted on this counter. -/
def CountsSwaps (roles : τ → Role) (c : Counter) : Prop :=
  ∀ t, c ∈ (roles t).counters → (roles t).swaps = some c

/-- A counter is behind the swaps by those that are not yet counted. -/
structure Exact [Fintype τ] (roles : τ → Role) (c : Counter) (w : World τ) : Prop where
  charged : ∀ t, Charged (roles t) (w.pc t)
  exact : w.counters c + tally (Pc.owes c) w.pc = w.made roles c

/-- A swapper counts on its swap counter only. -/
theorem Role.counters_of_swaps {role : Role} {c p : Counter} (swaps : role.swaps = some c)
    (counts : p ∈ role.counters) : p = c := by
  cases role with
  | swap needSwap swapCounter =>
      exact (List.mem_singleton.mp counts).trans (Option.some.inj swaps)
  | traverse matchPred iterCounter pairsCounter => cases swaps
  | monitor => cases swaps

/-- The counters of swaps are used for nothing else. -/
theorem countsSwaps (program : ∀ t, (roles t).OfProgram) {c : Counter}
    (swaps : c = .ascSwaps ∨ c = .descSwaps ∨ c = .equalSwaps) : CountsSwaps roles c := by
  intro t counts
  obtain role | role | role | role | role | role | role := program t
  all_goals
    rw [role] at counts ⊢
    obtain rfl | rfl | rfl := swaps
    all_goals first | rfl | exact absurd counts (by decide)

variable [Fintype τ] [DecidableEq τ] {c : Counter}

/-- One thread moves on: what it owes is exchanged for what it then owes. -/
theorem tally_owes (c : Counter) (pcs : next.pc = Function.update w.pc t pc') :
    tally (Pc.owes c) next.pc + (w.pc t).owes c = tally (Pc.owes c) w.pc + pc'.owes c := by
  rw [pcs]
  exact tally_update (Pc.owes c) w.pc t pc'

theorem Exact.charged_step (exact : Exact roles c w) (pcs : next.pc = Function.update w.pc t pc')
    (charged : Charged (roles t) pc') (u : τ) : Charged (roles u) (next.pc u) := by
  rw [pcs]
  by_cases self : u = t
  · subst self
    rwa [Function.update_self]
  · rw [Function.update_of_ne self]
    exact exact.charged u

/-- A step that neither counts nor completes a swap. -/
theorem Exact.keep (exact : Exact roles c w) (pcs : next.pc = Function.update w.pc t pc')
    (charged : Charged (roles t) pc') (counters : next.counters = w.counters)
    (swapped : next.swapped = w.swapped) (owes : pc'.owes c = (w.pc t).owes c) :
    Exact roles c next := by
  refine ⟨exact.charged_step pcs charged, ?_⟩
  have total := tally_owes c pcs
  have made : next.made roles c = w.made roles c := congrArg _ swapped
  have before := exact.exact
  rw [counters, made]
  omega

/-- The store of an incremented counter. -/
theorem Exact.count (exact : Exact roles c w) (counts : CountsSwaps roles c)
    (pcs : next.pc = Function.update w.pc t pc') (charged : Charged (roles t) pc') {p : Counter}
    (mine : p ∈ (roles t).counters)
    (counters : next.counters = Function.update w.counters p (w.counters p + 1))
    (swapped : next.swapped = w.swapped)
    (owes : (w.pc t).owes c = pc'.owes c + if (roles t).swaps = some c then 1 else 0) :
    Exact roles c next := by
  refine ⟨exact.charged_step pcs charged, ?_⟩
  have total := tally_owes c pcs
  have made : next.made roles c = w.made roles c := congrArg _ swapped
  have before := exact.exact
  rw [counters, made]
  by_cases swaps : (roles t).swaps = some c
  · obtain rfl := Role.counters_of_swaps swaps mine
    rw [if_pos swaps] at owes
    rw [Function.update_self]
    omega
  · have other : c ≠ p := by
      rintro rfl
      exact swaps (counts t mine)
    rw [if_neg swaps] at owes
    rw [Function.update_of_ne other]
    omega

/-- The last store of a swap. -/
theorem Exact.complete (exact : Exact roles c w) (pcs : next.pc = Function.update w.pc t pc')
    (charged : Charged (roles t) pc') (counters : next.counters = w.counters) {index : ℕ}
    (swapped : next.swapped = w.swapped ++ [(t, index)])
    (owes : pc'.owes c = (w.pc t).owes c + if (roles t).swaps = some c then 1 else 0) :
    Exact roles c next := by
  refine ⟨exact.charged_step pcs charged, ?_⟩
  have total := tally_owes c pcs
  have made : next.made roles c =
      w.made roles c + if (roles t).swaps = some c then 1 else 0 := by
    unfold World.made
    rw [swapped, List.countP_append, List.countP_singleton]
    simp only [decide_eq_true_eq]
  have before := exact.exact
  rw [counters, made]
  by_cases swaps : (roles t).swaps = some c
  · rw [if_pos swaps] at owes ⊢
    omega
  · rw [if_neg swaps] at owes ⊢
    omega

/-- **The step lemma.** A counter and what is owed to it add up to the swaps made. -/
theorem Exact.step {label : τ × ℕ} (exact : Exact roles c w) (counts : CountsSwaps roles c)
    (counted : Counted w) (moved : w.step v s roles label = some next) : Exact roles c next := by
  obtain ⟨effect, pc', coded, performed⟩ := World.step_cases moved
  obtain ⟨owes, charged⟩ := World.code_owes (exact.charged label.1) coded
  have accounts := World.code_accounts coded
  have settles := World.perform_settles performed
  cases effect with
  | lock x =>
      have swapped := World.perform_swapped (by nofun) performed
      obtain ⟨_, counters, pcs | same⟩ := settles
      · exact exact.keep pcs charged counters swapped (owes c)
      · refine exact.keep ?_ (exact.charged label.1) counters swapped rfl
        rw [same, Function.update_eq_self]
  | lockCounters =>
      have swapped := World.perform_swapped (by nofun) performed
      exact exact.keep settles.2.2.2 charged settles.2.2.1 swapped (owes c)
  | count p value =>
      have swapped := World.perform_swapped (by nofun) performed
      obtain ⟨_, counters, pcs⟩ := settles
      obtain ⟨_, ⟨read, storing, rfl⟩, _⟩ := accounts
      rw [counted.fresh label.1 p read storing] at counters
      exact exact.count counts pcs charged owes.1 counters swapped (owes.2 c)
  | store x node completes =>
      obtain ⟨_, counters, pcs⟩ := settles
      cases completes with
      | none =>
          have swapped := World.perform_swapped (by nofun) performed
          exact exact.keep pcs charged counters swapped (owes c)
      | some index =>
          obtain rfl := Option.some.inj performed
          exact exact.complete pcs charged counters rfl (owes c)
  | _ =>
      have swapped := World.perform_swapped (by nofun) performed
      exact exact.keep settles.2.2 charged settles.2.1 swapped (owes c)

/-- **The run lemma.** So they do in every reachable state. -/
theorem exact (counts : CountsSwaps roles c)
    (reached : Reaches (World.step v s roles) (World.start s roles) w) : Exact roles c w := by
  induction reached with
  | start =>
      have none : ∀ t, (roles t).begin.call = none ∧ (roles t).begin.owes c = 0 := by
        intro t
        cases roles t <;> exact ⟨rfl, rfl⟩
      refine ⟨fun t => .of_none (none t).1, ?_⟩
      have nothing : tally (Pc.owes c) (World.start s roles).pc = 0 :=
        tally_eq_zero fun t => (none t).2
      rw [nothing]
      rfl
  | step label before _ moved ih => exact ih.step counts (counted before) moved

/-! ## The account along a run -/

/-- **The step lemma.** Every swap changes the inversions by one. -/
theorem Accounted.step (listed : s.Lists data) (program : ∀ t, (roles t).OfProgram)
    (placed : Placed s roles data w) (sound : Sound (Conflicts v roles) (w.view s data))
    (accounted : Accounted s roles data w) {label : τ × ℕ}
    (moved : w.step v s roles label = some next) : Accounted s roles data next := by
  by_cases completes : ∃ index prev a b, w.pc label.1 = .swap (.storeB index prev a b)
  · obtain ⟨index, prev, a, b, point⟩ := completes
    obtain ⟨swapped, front, back, before, _, after⟩ := placed.storeB_step sound point moved
    obtain ⟨needSwap, swapCounter, role, needs⟩ := placed.needed point
    apply accounted.complete swapped before after
    obtain same | same | same := (program label.1).swap role
    · rw [same] at role
      cases role
      exact .inl ⟨same, of_decide_eq_true needs⟩
    · rw [same] at role
      cases role
      exact .inr (.inl ⟨same, of_decide_eq_true needs⟩)
    · rw [same] at role
      cases role
      exact .inr (.inr ⟨same, of_decide_eq_true needs⟩)
  · push Not at completes
    exact accounted.of_swapped (placed.listed_step listed sound moved completes)

/-- **The run lemma.** The inversions are accounted for in every reachable state. -/
theorem accounted (listed : s.Lists data) (program : ∀ t, (roles t).OfProgram)
    (reached : Reaches (World.step v s roles) (World.start s roles) w) :
    Accounted s roles data w := by
  induction reached with
  | start =>
      refine ⟨nofun, 0, ?_, ?_, ?_⟩
      · simp [World.start, World.listed, World.made]
      · simp [World.start, World.made]
      · simp [World.start, World.made]
  | step label before _ moved ih =>
      obtain ⟨placed, sound⟩ := invariants listed before
      exact ih.step listed program placed sound moved

/-- **The swap counters account for the order of the list.** In every state that any
threads of the program reach on any list: where no swap is between its first store and the
increment of its counter, the chain in memory has the initial inversions, less the ascending
and more the descending swaps, up to a number that is no greater than the equal swaps and of
the same parity. If all swaps are ascending, there are never more of them than initial
inversions, and none on a sorted list. -/
theorem swap_counters_account (listed : s.Lists data) (program : ∀ t, (roles t).OfProgram)
    (reached : Reaches (World.step v s roles) (World.start s roles) w) :
    ((∀ t, (w.pc t).settled = true) → ∃ now, Chain w.next s.first now ∧ ∃ e : ℤ,
        (inversions s.len now : ℤ) =
          inversions s.len data - w.counters .ascSwaps + w.counters .descSwaps + e ∧
        |e| ≤ w.counters .equalSwaps ∧ e ≡ w.counters .equalSwaps [ZMOD 2]) ∧
      ((∀ t, (roles t).writes = true → roles t = threadSwapAsc) →
        w.swapped.length ≤ inversions s.len data ∧
          (data.Pairwise (fun x y => s.len x ≤ s.len y) → w.swapped = [])) := by
  obtain ⟨placed, sound⟩ := invariants listed reached
  obtain ⟨swaps, e, sum, bound, parity⟩ := accounted listed program reached
  refine ⟨fun settled => ⟨w.listed data, ?_, e, ?_⟩, fun ascending => ?_⟩
  · exact placed.chain_settled sound fun t => Pc.hidden_of_settled (settled t)
  · have counter : ∀ c, c = .ascSwaps ∨ c = .descSwaps ∨ c = .equalSwaps →
        w.counters c = w.made roles c := by
      intro c kind
      have nothing : tally (Pc.owes c) w.pc = 0 :=
        tally_eq_zero fun t => Pc.owes_of_settled c (settled t)
      have total := (exact (countsSwaps program kind) reached).exact
      rw [nothing] at total
      simpa using total
    rw [counter _ (.inl rfl), counter _ (.inr (.inl rfl)), counter _ (.inr (.inr rfl))]
    exact ⟨sum, bound, parity⟩
  · have only : ∀ entry ∈ w.swapped, roles entry.1 = threadSwapAsc := by
      intro entry member
      apply ascending entry.1
      obtain role | role | role := swaps entry member <;> rw [role] <;> rfl
    have asc : w.made roles .ascSwaps = w.swapped.length := by
      refine List.countP_eq_length.mpr fun entry member => ?_
      rw [only entry member]
      rfl
    have none : ∀ c, c ≠ .ascSwaps → w.made roles c = 0 := by
      intro c other
      refine List.countP_eq_zero.mpr fun entry member => ?_
      rw [only entry member, decide_eq_true_eq]
      exact fun same => other (Option.some.inj same).symm
    rw [asc, none .descSwaps nofun] at sum
    rw [none .equalSwaps nofun] at bound
    have within := abs_le.mp bound
    have few : w.swapped.length ≤ inversions s.len data := by omega
    refine ⟨few, fun sorted => ?_⟩
    rw [inversions_eq_zero_iff.mpr sorted] at few
    exact List.length_eq_zero_iff.mp (Nat.le_zero.mp few)

/-- The theorem after a descending swap on a sorted list, and after the one ascending swap
that a list with one inversion allows. -/
theorem swap_counters_account_run :
    (∃ s w, storageInit .mutex ⟨id, fun _ => true, fun _ => true⟩ 3 = .ok (some s) ∧
      Reaches (World.step .mutex s swapAndTraverse) (World.start s swapAndTraverse) w ∧
      w.counters .descSwaps = 1 ∧ ∃ now, Chain w.next s.first now ∧ ∃ e : ℤ,
        (inversions s.len now : ℤ) =
          inversions s.len [1, 2, 3] - w.counters .ascSwaps + w.counters .descSwaps + e ∧
        |e| ≤ w.counters .equalSwaps ∧ e ≡ w.counters .equalSwaps [ZMOD 2]) ∧
      ∃ s, ∃ w : World (Fin 1),
        storageInit .mutex ⟨fun k => if k = 0 then 2 else 0, fun _ => true, fun _ => true⟩ 2 =
          .ok (some s) ∧
        Reaches (World.step .mutex s fun _ => threadSwapAsc)
          (World.start s fun _ => threadSwapAsc) w ∧
        w.swapped = [(0, 0)] ∧ w.swapped.length ≤ inversions s.len [1, 2] := by
  refine ⟨?_, ?_⟩
  · have ran : ((storageInit .mutex ⟨id, fun _ => true, fun _ => true⟩ 3).toOption.join.bind
        fun s => (run (World.step .mutex s swapAndTraverse) (World.start s swapAndTraverse)
          (List.replicate 16 (0, 0))).map fun w =>
            (w.counters .descSwaps, decide (∀ t, (w.pc t).settled = true))) =
        some (1, true) := by
      decide +kernel
    obtain ⟨s, w, built, reached, seen⟩ := exists_reaches ran
    simp only [Prod.mk.injEq, decide_eq_true_eq] at seen
    have program : ∀ t, (swapAndTraverse t).OfProgram := by
      intro t
      match t with
      | 0 => simp [swapAndTraverse, Role.OfProgram]
      | 1 => simp [swapAndTraverse, Role.OfProgram]
    exact ⟨s, w, built, reached, seen.1,
      (swap_counters_account (storageInit_lists built) program reached).1 seen.2⟩
  · have ran : ((storageInit .mutex ⟨fun k => if k = 0 then 2 else 0, fun _ => true,
        fun _ => true⟩ 2).toOption.join.bind fun s =>
          (run (World.step .mutex s fun _ : Fin 1 => threadSwapAsc)
            (World.start s fun _ => threadSwapAsc) (List.replicate 12 (0, 0))).map
              fun w => w.swapped) = some [(0, 0)] := by
      decide +kernel
    obtain ⟨s, w, built, reached, seen⟩ := exists_reaches ran
    refine ⟨s, w, built, reached, seen, ?_⟩
    exact ((swap_counters_account (storageInit_lists built) (fun _ => by simp [Role.OfProgram])
      reached).2 fun _ _ => rfl).1

end OperationSystems.NodeList
