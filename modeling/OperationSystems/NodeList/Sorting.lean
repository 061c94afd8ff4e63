import OperationSystems.NodeList.Rest
import OperationSystems.NodeList.SwapCounters

/-!
# Ascending swaps sort the list

Where only `thread_swap_asc` swaps, every swap removes one inversion and nothing adds one.
As long as the list is not sorted, a thread can be led to two neighbours in the wrong order:
all others come to rest, `rand_r` gives the position of the two, and the call goes there
alone. On a sorted list no call finds anything to exchange.
-/

namespace OperationSystems.NodeList

open HandOverHand Inversions LinkedCells Transition

variable {τ : Type*} {v : Variant} {s : Storage} {roles : τ → Role} {data : List Node}
  {w next : World τ} {t : τ}

/-- All threads that swap are ascending. -/
def Ascending (roles : τ → Role) : Prop := ∀ t, (roles t).writes = true → roles t = threadSwapAsc

/-- The list of nodes is sorted by the lengths of their strings. -/
def Storage.Sorted (s : Storage) (list : List Node) : Prop :=
  list.Pairwise fun x y => s.len x ≤ s.len y

/-! ## The balance -/

section Balance

variable [Fintype τ] [DecidableEq τ]

/-- **The step lemma.** Swaps and inversions together stay as many as they are. -/
theorem Placed.ascending_step (ascending : Ascending roles) (listed : s.Lists data)
    (placed : Placed s roles data w) (sound : Sound (Conflicts v roles) (w.view s data))
    {label : τ × ℕ} (moved : w.step v s roles label = some next) :
    inversions s.len (next.listed data) + next.swapped.length =
      inversions s.len (w.listed data) + w.swapped.length := by
  by_cases completes : ∃ index prev a b, w.pc label.1 = .swap (.storeB index prev a b)
  · obtain ⟨index, prev, a, b, point⟩ := completes
    obtain ⟨swapped, front, back, before, _, after⟩ := placed.storeB_step sound point moved
    obtain ⟨needSwap, swapCounter, role, needs⟩ := placed.needed point
    have same := ascending label.1 (by rw [role]; rfl)
    rw [same] at role
    cases role
    have fewer := inversions_of_gt s.len (of_decide_eq_true needs) front back
    rw [before, after, swapped, List.length_append, List.length_singleton, fewer]
    omega
  · push Not at completes
    have same := placed.listed_step listed sound moved completes
    unfold World.listed
    rw [same]

/-- **The run lemma.** Every swap has removed one inversion. -/
theorem ascending_balance (ascending : Ascending roles) (listed : s.Lists data)
    (reached : Reaches (World.step v s roles) (World.start s roles) w) :
    inversions s.len (w.listed data) + w.swapped.length = inversions s.len data := by
  induction reached with
  | start => rfl
  | step label before _ moved ih =>
      obtain ⟨placed, sound⟩ := invariants listed before
      exact (placed.ascending_step ascending listed sound moved).trans ih

/-- What has been swapped stays swapped. -/
theorem World.swapped_grows {label : τ × ℕ} (moved : w.step v s roles label = some next) :
    w.swapped <+: next.swapped := by
  obtain ⟨effect, pc', _, performed⟩ := World.step_cases moved
  cases effect with
  | store x node completes =>
      obtain rfl := Option.some.inj performed
      exact List.prefix_append _ _
  | _ =>
      have same := World.perform_swapped (by rintro _ _ _ ⟨⟩) performed
      rw [same]

/-- So it does along a run. -/
theorem World.swapped_prefix {later : World τ} (ran : Reaches (World.step v s roles) w later) :
    w.swapped <+: later.swapped := by
  induction ran with
  | start => exact List.prefix_rfl
  | step label _ _ moved ih => exact ih.trans (World.swapped_grows moved)

/-- On a sorted list no swap is ever made again. -/
theorem ascending_stable (ascending : Ascending roles) (listed : s.Lists data)
    (reached : Reaches (World.step v s roles) (World.start s roles) w)
    (sorted : s.Sorted (w.listed data)) {later : World τ}
    (ran : Reaches (World.step v s roles) w later) : later.swapped = w.swapped := by
  have now := ascending_balance ascending listed reached
  have after := ascending_balance ascending listed (reached.trans ran)
  have none := inversions_eq_zero_iff.mpr sorted
  exact (List.IsPrefix.eq_of_length_le (World.swapped_prefix ran) (by omega)).symm

end Balance

/-! ## One thread alone -/

/-- The index of a call that has locked the sentinel and has not yet made its last store. -/
def SwapPc.aim : SwapPc → Option ℕ
  | .readFirst index => some index
  | .lockA index _ => some index
  | .loop index _ _ _ => some index
  | .lockNext index _ _ _ _ => some index
  | .unlockPrev index _ _ _ _ => some index
  | .readB index _ _ => some index
  | .lockB index _ _ _ => some index
  | .compare index _ _ _ => some index
  | .storePrev index _ _ _ => some index
  | .loadNext index _ _ _ => some index
  | .storeA index _ _ _ _ => some index
  | .storeB index _ _ _ => some index
  | _ => none

section Code

variable {memory : Node → Option Node} {counters : Counter → ℤ} {needSwap : PairPredicate}
  {swapCounter : Counter} {visited : List Node} {index : ℕ}

/-- A call keeps to its index up to its last store, if it finds a node wherever it reads a
pointer and the predicate holds. -/
theorem doRandomSwap_aim {pc : SwapPc} (rand : ℕ) (aims : pc.aim = some index)
    (needs : ∀ prev a b, pc = .compare index prev a b →
      needSwap (s.value a).strlen (s.value b).strlen = true)
    (present : ¬ Pc.Missing
      (.swap (doRandomSwap s needSwap swapCounter rand memory counters pc).2)) :
    (doRandomSwap s needSwap swapCounter rand memory counters pc).2.aim = some index ∨
      ∃ prev a b, pc = .storeB index prev a b := by
  cases pc with
  | readFirst index =>
      simp only [doRandomSwap] at present ⊢
      cases read : memory s.first with
      | none =>
          rw [read] at present
          exact absurd trivial present
      | some a => exact .inl aims
  | loop index i prev a =>
      simp only [doRandomSwap] at present ⊢
      by_cases further : i < index
      · simp only [if_pos further] at present ⊢
        cases read : memory a with
        | none =>
            rw [read] at present
            exact absurd trivial present
        | some node => exact .inl aims
      · rw [if_neg further]
        exact .inl aims
  | readB index prev a =>
      simp only [doRandomSwap] at present ⊢
      cases read : memory a with
      | none =>
          rw [read] at present
          exact absurd trivial present
      | some b => exact .inl aims
  | compare index' prev a b =>
      obtain rfl := Option.some.inj aims
      simp only [doRandomSwap, if_pos (needs prev a b rfl)]
      exact .inl rfl
  | storeB index prev a b =>
      obtain rfl := Option.some.inj aims
      exact .inr ⟨prev, a, b, rfl⟩
  | lockA index a => exact .inl aims
  | lockNext index i prev a node => exact .inl aims
  | unlockPrev index i prev a node => exact .inl aims
  | lockB index prev a b => exact .inl aims
  | storePrev index prev a b => exact .inl aims
  | loadNext index prev a b => exact .inl aims
  | storeA index prev a b node => exact .inl aims
  | _ => cases aims

/-- Who aims at a pair has a swap to finish. -/
theorem SwapPc.left_of_aim {pc : SwapPc} (aims : pc.aim = some index) : 0 < pc.left := by
  cases pc with
  | start => cases aims
  | lockFirst index => cases aims
  | _ => exact Nat.succ_pos _

end Code

/-- All threads but this one are at rest. -/
def World.Alone (s : Storage) (w : World τ) (t : τ) : Prop := ∀ u, u ≠ t → w.left s u = 0

/-- The thread is between two calls, or in one and holds a lock. -/
def World.AtStart (s : Storage) (w : World τ) (t : τ) : Prop :=
  w.pc t = .swap .start ∨ 0 < w.left s t

/-- A swapping thread that is alone is never blocked. -/
theorem Placed.not_blocked_of_alone (placed : Placed s roles data w)
    (sound : Sound (Conflicts v roles) (w.view s data)) (counted : Counted w)
    (alone : w.Alone s t) (writes : (roles t).writes = true) : ¬ w.Blocked v s roles t := by
  intro blocked
  obtain ⟨u, waits⟩ := blocked.waits
  by_cases self : u = t
  · subst self
    exact absurd (placed.rank_lt sound counted waits waits) (lt_irrefl _)
  · have idle : ¬ (w.held u ≠ [] ∨ (w.pc u).owns = true) :=
      mt placed.left_pos_iff.mpr (Nat.not_lt.mpr (alone u self).le)
    obtain ⟨x, _, ⟨_, held⟩ | ⟨behind, _⟩⟩ | ⟨_, owner⟩ := waits
    · exact idle (.inl (List.ne_nil_of_mem held))
    · rw [(Variant.waitsBehind_writes behind).1] at writes
      cases writes
    · exact idle (.inr ((counted.owner u).mp owner))

/-- The nodes at an index of the list, where a call compares them. -/
theorem Placed.compared (placed : Placed s roles data w)
    (sound : Sound (Conflicts v roles) (w.view s data)) {prev a b c d : Node}
    {front back : List Node} (point : w.pc t = .swap (.compare front.length prev a b))
    (place : w.listed data = front ++ c :: d :: back) : a = c ∧ b = d := by
  have located := placed.located t
  have held : w.held t = [prev, a, b] := by
    rw [located.held, point]
    rfl
  have walked : front.length + 2 ≤ s.count ∧ (w.visited t).length = front.length + 3 := by
    have reckoned := located.reckoned
    rwa [point] at reckoned
  have walks : (w.pc t).walks = true := by
    rw [point]
    rfl
  obtain ⟨before, behind, split, length⟩ := Placed.site_of_held sound walks held walked.2
  have one : w.order s data = (before ++ [prev]) ++ a :: b :: behind := by simp [split]
  have two : w.order s data = (s.first :: front) ++ c :: d :: back := by
    unfold World.order
    rw [place]
    rfl
  have same := List.append_inj (one.symm.trans two) (by simp [length])
  simp only [List.cons.injEq] at same
  exact ⟨same.2.1, same.2.2.1⟩

theorem doRandomSwap_start {needSwap : PairPredicate} {swapCounter : Counter} {rand : ℕ}
    {memory : Node → Option Node} {counters : Counter → ℤ} {pc : SwapPc} (busy : 0 < pc.left) :
    (doRandomSwap s needSwap swapCounter rand memory counters pc).2 = .start ∨
      0 < (doRandomSwap s needSwap swapCounter rand memory counters pc).2.left := by
  cases pc with
  | start => exact absurd busy (lt_irrefl 0)
  | lockFirst index => exact absurd busy (lt_irrefl 0)
  | missingA => exact .inl rfl
  | missingPrev prev => exact .inl rfl
  | unlockLast prev => exact .inl rfl
  | readFirst index =>
      simp only [doRandomSwap]
      split <;> exact .inr (Nat.succ_pos _)
  | loop index i prev a =>
      simp only [doRandomSwap]
      split
      · split <;> exact .inr (Nat.succ_pos _)
      · exact .inr (Nat.succ_pos _)
  | readB index prev a =>
      simp only [doRandomSwap]
      split <;> exact .inr (Nat.succ_pos _)
  | compare index prev a b =>
      simp only [doRandomSwap]
      split <;> exact .inr (Nat.succ_pos _)
  | count prev a b call => cases call <;> exact .inr (Nat.succ_pos _)
  | _ => exact .inr (Nat.succ_pos _)

/-- The nodes of an ascending swap between its stores. -/
theorem Placed.exchanging (placed : Placed s roles data w) (role : roles t = threadSwapAsc)
    {x : Node} (hides : (w.pc t).hidden = some x) :
    ∃ prev b, w.held t = [prev, x, b] ∧ s.len b < s.len x := by
  have held := (placed.located t).held
  have runs := (placed.located t).runs
  rw [role] at runs
  cases point : w.pc t with
  | swap pc =>
      rw [point] at hides held runs
      have needed : pc.Needed s predGreater := runs
      cases pc with
      | loadNext index prev a b =>
          obtain rfl := Option.some.inj hides
          exact ⟨prev, b, held, of_decide_eq_true needed⟩
      | storeA index prev a b node =>
          obtain rfl := Option.some.inj hides
          exact ⟨prev, b, held, of_decide_eq_true needed⟩
      | storeB index prev a b =>
          obtain rfl := Option.some.inj hides
          exact ⟨prev, b, held, of_decide_eq_true needed⟩
      | _ => cases hides
  | traverse pc =>
      rw [point] at hides
      cases hides
  | monitor pc =>
      rw [point] at hides
      cases hides

variable [Fintype τ] [DecidableEq τ]

/-- A thread that steps alone stays alone. -/
theorem World.Alone.step {rand : ℕ} (alone : w.Alone s t)
    (moved : w.step v s roles (t, rand) = some next) : next.Alone s t := by
  intro u away
  obtain ⟨_, _, _, performed⟩ := World.step_cases moved
  obtain ⟨point, walked, _⟩ := World.perform_others away performed
  have same := alone u away
  unfold World.left at same ⊢
  rwa [point, walked]

/-- A call that is alone exchanges the two neighbours that it aims at, if the first one is
longer. -/
theorem exists_swapped (listed : s.Lists data) (role : roles t = threadSwapAsc) {a b : Node}
    {front back : List Node} (longer : s.len b < s.len a)
    (reached : Reaches (World.step v s roles) (World.start s roles) w) (alone : w.Alone s t)
    {pc : SwapPc} (point : w.pc t = .swap pc) (aims : pc.aim = some front.length)
    (place : w.listed data = front ++ a :: b :: back) :
    ∃ next, Reaches (World.step v s roles) w next ∧
      next.swapped.length = w.swapped.length + 1 ∧ next.AtStart s t := by
  have writes : (roles t).writes = true := by
    rw [role]
    rfl
  have advance : ∀ u, (Reaches (World.step v s roles) (World.start s roles) u ∧
      (u.swapped.length = w.swapped.length + 1 ∧ u.AtStart s t ∨
        u.swapped = w.swapped ∧ u.Alone s t ∧
          ∃ pc, u.pc t = .swap pc ∧ pc.aim = some front.length)) →
      ¬ (u.swapped.length = w.swapped.length + 1 ∧ u.AtStart s t) →
      ∃ label next, u.step v s roles label = some next ∧
        (Reaches (World.step v s roles) (World.start s roles) next ∧
          (next.swapped.length = w.swapped.length + 1 ∧ next.AtStart s t ∨
            next.swapped = w.swapped ∧ next.Alone s t ∧
              ∃ pc, next.pc t = .swap pc ∧ pc.aim = some front.length)) ∧
        next.left s t < u.left s t := by
    rintro u ⟨before, under⟩ unswapped
    obtain ⟨swapped, alone, pc, point, aims⟩ := under.resolve_left unswapped
    obtain ⟨placed, sound⟩ := invariants listed before
    have free := placed.not_blocked_of_alone sound (counted before) alone writes
    obtain ⟨effect, pc', next, coded, moved, after, walked⟩ := placed.exists_step 0 free
    have busy : 0 < u.left s t := by
      unfold World.left
      rw [point]
      exact SwapPc.left_of_aim aims
    have nearer : next.left s t < u.left s t := by
      have less := placed.code_left listed sound busy coded
      unfold World.left at less ⊢
      rwa [after, walked]
    refine ⟨(t, 0), next, moved, ⟨before.next _ moved, ?_⟩, nearer⟩
    have present := ((invariants listed (before.next _ moved)).1.located t).not_missing
    have here : u.listed data = front ++ a :: b :: back := by
      rw [← place]
      unfold World.listed
      rw [swapped]
    simp only [role, point] at coded
    obtain ⟨-, rfl⟩ := Prod.mk.inj (Option.some.inj coded)
    rw [after] at present
    have needs : ∀ prev x y, pc = .compare front.length prev x y →
        predGreater (s.value x).strlen (s.value y).strlen = true := by
      rintro prev x y rfl
      obtain ⟨rfl, rfl⟩ := placed.compared sound point here
      exact decide_eq_true longer
    obtain further | ⟨prev, x, y, rfl⟩ := doRandomSwap_aim 0 aims needs present
    · have quiet : ∀ index prev x y, u.pc t ≠ .swap (.storeB index prev x y) := by
        intro index prev x y last
        rw [point] at last
        cases last
        cases further
      exact .inr ⟨(placed.listed_step listed sound moved quiet).trans swapped, alone.step moved, _,
        after, further⟩
    · refine .inl ⟨?_, .inr ?_⟩
      · rw [(placed.storeB_step sound point moved).1, List.length_append, List.length_singleton,
          swapped]
      · unfold World.left
        rw [after]
        exact Nat.succ_pos _
  obtain ⟨final, ran, _, done⟩ := exists_reaches_of_measure _
    (fun u : World τ => u.swapped.length = w.swapped.length + 1 ∧ u.AtStart s t) _ advance
    ⟨reached, .inr ⟨rfl, alone, pc, point, aims⟩⟩
  exact ⟨final, ran, done⟩

/-! ## One more swap -/

/-- All come to rest, a swapping thread that is in a call behind it. -/
theorem exists_rest_at_start (listed : s.Lists data) (role : roles t = threadSwapAsc)
    (reached : Reaches (World.step v s roles) (World.start s roles) w) (begun : w.AtStart s t) :
    ∃ final, Reaches (World.step v s roles) w final ∧ final.AtRest s ∧
      final.pc t = .swap .start := by
  have keeps : ∀ u label next, Reaches (World.step v s roles) (World.start s roles) u →
      u.AtStart s t → Finishes s u label → u.step v s roles label = some next →
        next.AtStart s t := by
    intro u label next before begun finishes moved
    obtain ⟨effect, pc', coded, performed⟩ := World.step_cases moved
    by_cases self : label.1 = t
    · subst self
      obtain ⟨after, walked, _⟩ | ⟨after, walked, _⟩ := World.perform_own performed
      · have runs := ((invariants listed before).1.located label.1).runs
        cases point : u.pc label.1 with
        | swap pc =>
            have busy : 0 < pc.left := by
              unfold Finishes World.left at finishes
              rwa [point] at finishes
            simp only [role, point] at coded
            obtain ⟨-, rfl⟩ := Prod.mk.inj (Option.some.inj coded)
            rcases doRandomSwap_start busy with ended | going
            · exact .inl (after.trans (congrArg Pc.swap ended))
            · right
              unfold World.left
              rw [after]
              exact going
        | traverse pc =>
            rw [role, point] at runs
            exact runs.elim
        | monitor pc =>
            rw [role, point] at runs
            exact runs.elim
      · rcases begun with here | going
        · exact .inl (after.trans here)
        · right
          unfold World.left at going ⊢
          rwa [after, walked]
    · obtain ⟨point, walked, _⟩ := World.perform_others (Ne.symm self) performed
      rcases begun with here | going
      · exact .inl (point.trans here)
      · right
        unfold World.left at going ⊢
        rwa [point, walked]
  obtain ⟨final, ran, ended, rest⟩ := exists_rest listed keeps reached begun
  refine ⟨final, ran.reaches, rest, ended.resolve_right ?_⟩
  exact Nat.not_lt.mpr (rest t).le

/-- A thread that is alone and about to begin a walk gets the lock of the sentinel. -/
theorem exists_entered (listed : s.Lists data) (role : roles t = threadSwapAsc)
    (reached : Reaches (World.step v s roles) (World.start s roles) w) (alone : w.Alone s t)
    {index : ℕ} (point : w.pc t = .swap (.lockFirst index)) :
    ∃ next, Reaches (World.step v s roles) w next ∧ next.Alone s t ∧
      next.swapped = w.swapped ∧ next.pc t = .swap (.readFirst index) := by
  obtain ⟨placed, sound⟩ := invariants listed reached
  have writes : (roles t).writes = true := by
    rw [role]
    rfl
  have free := placed.not_blocked_of_alone sound (counted reached) alone writes
  obtain ⟨effect, pc', next, coded, moved, after, _⟩ := placed.exists_step 0 free
  simp only [role, point] at coded
  obtain ⟨-, rfl⟩ := Prod.mk.inj (Option.some.inj coded)
  have quiet : ∀ index prev x y, w.pc t ≠ .swap (.storeB index prev x y) := by
    intro index prev x y last
    rw [point] at last
    cases last
  exact ⟨next, .next .start _ moved, alone.step moved, placed.listed_step listed sound moved quiet,
    after⟩

/-- While the list is not sorted, one more swap can be made. -/
theorem exists_one_more (ascending : Ascending roles) (listed : s.Lists data)
    (role : roles t = threadSwapAsc)
    (reached : Reaches (World.step v s roles) (World.start s roles) w) (rest : w.AtRest s)
    (begins : w.pc t = .swap .start) (unsorted : ¬ s.Sorted (w.listed data)) :
    ∃ next, Reaches (World.step v s roles) w next ∧ next.AtRest s ∧
      next.pc t = .swap .start ∧
      inversions s.len (next.listed data) < inversions s.len (w.listed data) := by
  obtain ⟨front, a, b, back, place, longer⟩ := exists_neighbours unsorted
  obtain ⟨placed, sound⟩ := invariants listed reached
  have alone : w.Alone s t := fun u _ => rest u
  have writes : (roles t).writes = true := by
    rw [role]
    rfl
  -- `rand_r` gives the position of the two neighbours
  have free := placed.not_blocked_of_alone sound (counted reached) alone writes
  obtain ⟨effect, pc', one, coded, moved, after, _⟩ := placed.exists_step front.length free
  simp only [role, begins] at coded
  obtain ⟨-, rfl⟩ := Prod.mk.inj (Option.some.inj coded)
  have count : s.count = front.length + 2 + back.length := by
    rw [listed.count, ← (w.listed_perm data).length_eq, place]
    simp only [List.length_append, List.length_cons]
    omega
  have chosen : front.length % (s.count - 1) = front.length := Nat.mod_eq_of_lt (by omega)
  have entering : one.pc t = .swap (.lockFirst front.length) := by
    rw [after]
    rw [if_neg (by omega), chosen]
  have quiet : ∀ index prev x y, w.pc t ≠ .swap (.storeB index prev x y) := by
    intro index prev x y last
    rw [begins] at last
    cases last
  have same := placed.listed_step listed sound moved quiet
  have reachedOne := reached.next _ moved
  -- the call goes there alone
  obtain ⟨two, ranTwo, aloneTwo, sameTwo, reading⟩ :=
    exists_entered listed role reachedOne (alone.step moved) entering
  have placeTwo : two.listed data = front ++ a :: b :: back := by
    rw [← place]
    unfold World.listed
    rw [sameTwo, same]
  have reachedTwo := reachedOne.trans ranTwo
  obtain ⟨three, ranThree, more, begun⟩ :=
    exists_swapped listed role longer reachedTwo aloneTwo reading rfl placeTwo
  have reachedThree := reachedTwo.trans ranThree
  obtain ⟨final, ran, still, ends⟩ := exists_rest_at_start listed role reachedThree begun
  have first : Reaches (World.step v s roles) w one := .next .start _ moved
  refine ⟨final, (first.trans ranTwo).trans (ranThree.trans ran), still, ends, ?_⟩
  have before := ascending_balance ascending listed reached
  have behind := ascending_balance ascending listed (reachedThree.trans ran)
  have grown := (World.swapped_prefix ran).length_le
  rw [more, sameTwo, same] at grown
  omega

/-! ## The list -/

/-- Where the list is sorted, no swap is between its stores. -/
theorem settled_of_sorted (ascending : Ascending roles) (listed : s.Lists data)
    (reached : Reaches (World.step v s roles) (World.start s roles) w)
    (sorted : s.Sorted (w.listed data)) (t : τ) : (w.pc t).hidden = none := by
  obtain ⟨placed, sound⟩ := invariants listed reached
  cases hides : (w.pc t).hidden with
  | none => rfl
  | some x =>
      obtain ⟨front, prev, b, back, split, held, _, _, writes, _⟩ := placed.hiding sound hides
      obtain ⟨prev', b', also, longer⟩ := placed.exchanging (ascending t writes) hides
      obtain ⟨rfl, rfl⟩ : prev = prev' ∧ b = b' := by simpa using held.symm.trans also
      -- the two stand next to each other, behind the sentinel
      obtain ⟨inner, shifted⟩ : ∃ inner, front ++ [prev] = s.first :: inner := by
        cases front with
        | nil => exact ⟨[], by rw [(List.cons.inj split).1]; rfl⟩
        | cons y front => exact ⟨front ++ [prev], by rw [(List.cons.inj split).1]; rfl⟩
      have place := behind_first split shifted
      unfold Storage.Sorted at sorted
      rw [place] at sorted
      have neighbours := (List.pairwise_append.mp sorted).2.1
      have inOrder := List.rel_of_pairwise_cons neighbours List.mem_cons_self
      exact absurd longer (not_lt_of_ge inOrder)

/-- All come to rest, a swapping thread between two calls. -/
theorem exists_begin (listed : s.Lists data) (role : roles t = threadSwapAsc)
    (reached : Reaches (World.step v s roles) (World.start s roles) w) :
    ∃ next, Reaches (World.step v s roles) w next ∧ next.AtRest s ∧
      next.pc t = .swap .start := by
  obtain ⟨one, ran, _, rest⟩ : ∃ one, ReachesBy (World.step v s roles) (Finishes s) w one ∧
      True ∧ one.AtRest s :=
    exists_rest listed (fun _ _ _ _ _ _ _ => trivial) reached trivial
  have reachedOne := reached.trans ran.reaches
  have runs := ((invariants listed reachedOne).1.located t).runs
  rw [role] at runs
  have ended := rest t
  unfold World.left at ended
  cases point : one.pc t with
  | swap pc =>
      rw [point] at ended
      cases pc with
      | start => exact ⟨one, ran.reaches, rest, point⟩
      | lockFirst index =>
          -- the call that has its index is led to its end
          obtain ⟨two, ranTwo, _, _, reading⟩ :=
            exists_entered listed role reachedOne (fun u _ => rest u) point
          have begun : two.AtStart s t := by
            right
            unfold World.left
            rw [reading]
            exact Nat.succ_pos _
          obtain ⟨next, ranNext, still, starts⟩ :=
            exists_rest_at_start listed role (reachedOne.trans ranTwo) begun
          exact ⟨next, ran.reaches.trans (ranTwo.trans ranNext), still, starts⟩
      | _ => cases ended
  | traverse pc =>
      rw [point] at runs
      exact runs.elim
  | monitor pc =>
      rw [point] at runs
      exact runs.elim

/-- **Ascending swaps sort the list.** Take any list and any threads of which only ascending
ones swap, at least one. From every reachable state the list can still be sorted, and that
has then taken as many swaps, from the start, as the first list had inversions, in whatever
order they were made. Once the list is sorted no swap is made again, and in every later state
the chain in memory is that list. -/
theorem ascending_swaps_sort (listed : s.Lists data) (ascending : Ascending roles)
    (swapper : roles t = threadSwapAsc)
    (reached : Reaches (World.step v s roles) (World.start s roles) w) :
    (∃ final, Reaches (World.step v s roles) w final ∧ (∀ u, final.held u = []) ∧
      s.Sorted (final.listed data) ∧ (final.listed data).Perm data ∧
        final.swapped.length = inversions s.len data) ∧
      (s.Sorted (w.listed data) → ∀ later, Reaches (World.step v s roles) w later →
        later.swapped = w.swapped ∧ Chain later.next s.first (w.listed data)) := by
  refine ⟨?_, fun sorted later ran => ?_⟩
  · obtain ⟨one, ran, rest, starts⟩ := exists_begin listed swapper reached
    have advance : ∀ u, (Reaches (World.step v s roles) (World.start s roles) u ∧
        u.AtRest s ∧ u.pc t = .swap .start) → ¬ s.Sorted (u.listed data) →
        ∃ next, Reaches (World.step v s roles) u next ∧
          (Reaches (World.step v s roles) (World.start s roles) next ∧ next.AtRest s ∧
            next.pc t = .swap .start) ∧
          inversions s.len (next.listed data) < inversions s.len (u.listed data) := by
      rintro u ⟨before, rest, starts⟩ unsorted
      obtain ⟨next, went, still, ends, fewer⟩ :=
        exists_one_more ascending listed swapper before rest starts unsorted
      exact ⟨next, went, ⟨before.trans went, still, ends⟩, fewer⟩
    obtain ⟨final, went, ⟨after, still, _⟩, sorted⟩ := exists_reachesBy_of_runs _
      (fun u : World τ => s.Sorted (u.listed data)) _ advance
      ⟨reached.trans ran, rest, starts⟩
    obtain ⟨placed, sound⟩ := invariants listed after
    have balance := ascending_balance ascending listed after
    rw [inversions_eq_zero_iff.mpr sorted, Nat.zero_add] at balance
    exact ⟨final, ran.trans went, (placed.at_rest sound (counted after) still).1, sorted,
      final.listed_perm data, balance⟩
  · have same := ascending_stable ascending listed reached sorted ran
    have list : later.listed data = w.listed data := by
      unfold World.listed
      rw [same]
    have after := reached.trans ran
    obtain ⟨placed, sound⟩ := invariants listed after
    have settled := settled_of_sorted ascending listed after (list ▸ sorted)
    exact ⟨same, list ▸ placed.chain_settled sound settled⟩

/-- Results of `rand` that give strings of the lengths 3, 2 and 1. -/
def falling (k : ℕ) : ℕ := if k = 0 then 2 else if k = 4 then 1 else 0

/-- Two ascending threads and a traversal. -/
def twoAscending : Fin 3 → Role
  | 0 => threadSwapAsc
  | 1 => threadSwapAsc
  | 2 => threadAsc

/-- The theorem on a list in descending order, where one thread is between its stores, the
other one waits and the traversal is in front of both. -/
theorem ascending_swaps_sort_run : ∃ s w final,
    storageInit (.rw true) ⟨falling, fun _ => true, fun _ => true⟩ 3 = .ok (some s) ∧
      (w.pc 0).hidden = some 1 ∧ w.queued 1 = true ∧ w.held 2 = [3] ∧
      Reaches (World.step (.rw true) s twoAscending) w final ∧ s.Sorted (final.listed [1, 2, 3]) ∧
      final.swapped.length = 3 := by
  have ran : ((storageInit (.rw true) ⟨falling, fun _ => true, fun _ => true⟩ 3).toOption.join.bind
      fun s => (run (World.step (.rw true) s twoAscending) (World.start s twoAscending)
        (List.replicate 13 (2, 0) ++ List.replicate 10 (0, 0) ++ List.replicate 2 (1, 0))).map
          fun w => ((w.pc 0).hidden, w.queued 1, w.held 2)) = some (some 1, true, [3]) := by
    decide +kernel
  have number : (storageInit (.rw true) ⟨falling, fun _ => true, fun _ => true⟩
      3).toOption.join.map (fun s => inversions s.len [1, 2, 3]) = some 3 := by
    decide +kernel
  obtain ⟨s, w, built, reached, seen⟩ := exists_reaches ran
  simp only [Prod.mk.injEq] at seen
  obtain ⟨hides, asleep, held⟩ := seen
  rw [built] at number
  have ascending : Ascending twoAscending := by
    intro t writes
    match t with
    | 0 => rfl
    | 1 => rfl
    | 2 => cases writes
  have swapper : twoAscending 0 = threadSwapAsc := rfl
  obtain ⟨⟨final, went, _, sorted, _, swaps⟩, _⟩ :=
    ascending_swaps_sort (storageInit_lists built) ascending swapper reached
  exact ⟨s, w, final, built, hides, asleep, held, went, sorted,
    swaps.trans (Option.some.inj number)⟩

end OperationSystems.NodeList
