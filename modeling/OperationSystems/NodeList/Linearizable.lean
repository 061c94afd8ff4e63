import OperationSystems.NodeList.Chains

/-!
# Concurrent swaps are linearizable

A swap takes effect with its last pointer store, as one exchange of the neighbours at its
index in the list that the completed swaps have made. Whenever no swap is between its
stores the memory holds this list.
-/

namespace OperationSystems.NodeList

open HandOverHand LinkedCells Transition

/-- The call of `do_random_swap` has read NULL where a node was expected. -/
def Pc.Missing : Pc → Prop
  | .swap .missingA => True
  | .swap (.broken _ _ _) => True
  | .swap (.missingB _ _) => True
  | .swap (.missingPrev _) => True
  | _ => False

variable {τ : Type*} [Fintype τ] [DecidableEq τ] {v : Variant} {s : Storage} {roles : τ → Role}
  {data : List Node} {w next : World τ} {t : τ} {pc' : Pc} {effect : Effect}

omit [Fintype τ] [DecidableEq τ] in
theorem Located.not_missing {role : Role} {order held visited : List Node}
    {memory : Node → Option Node} {pc : Pc}
    (located : Located s role order memory held visited pc) : ¬ pc.Missing := by
  intro missing
  have reckoned := located.reckoned
  cases pc with
  | swap pc =>
      cases pc with
      | missingA => exact reckoned
      | broken index prev a => exact reckoned
      | missingB prev a => exact reckoned
      | missingPrev prev => exact reckoned
      | _ => exact missing
  | traverse pc => exact missing
  | monitor pc => exact missing

/-- Only the last store of a swap is logged. -/
theorem World.perform_swapped (quiet : ∀ x node index, effect ≠ .store x node (some index))
    (performed : w.perform v s roles t pc' effect = some next) : next.swapped = w.swapped := by
  cases effect with
  | lock x => obtain ⟨_, rfl⟩ | ⟨_, rfl⟩ := perform_lock performed <;> rfl
  | lockCounters =>
      obtain ⟨_, rfl⟩ := perform_lockCounters performed
      rfl
  | store x node completes =>
      obtain rfl := Option.some.inj performed
      cases completes with
      | none => exact List.append_nil _
      | some index => exact absurd rfl (quiet x node index)
  | _ =>
      obtain rfl := Option.some.inj performed
      rfl

/-- A step that is not the last store of a swap leaves the list alone. -/
theorem Placed.listed_step (listed : s.Lists data) (placed : Placed s roles data w)
    (sound : Sound (Conflicts v roles) (w.view s data)) {label : τ × ℕ}
    (moved : w.step v s roles label = some next)
    (other : ∀ index prev a b, w.pc label.1 ≠ .swap (.storeB index prev a b)) :
    next.swapped = w.swapped := by
  obtain ⟨effect, pc', coded, performed⟩ := World.step_cases moved
  refine World.perform_swapped ?_ performed
  rintro x node index rfl
  obtain ⟨_, ⟨prev, a, _, point⟩, _⟩ := placed.turn sound listed coded
  exact other index prev a x point

/-- What stands behind a node of the list, in terms of the nodes without the sentinel. -/
theorem behind_first {first prev : Node} {rest front inner tail : List Node}
    (split : first :: rest = front ++ prev :: tail) (shifted : front ++ [prev] = first :: inner) :
    rest = inner ++ tail := by
  have whole : first :: rest = first :: (inner ++ tail) := by
    rw [split, ← List.cons_append, ← shifted, List.append_assoc]
    rfl
  exact (List.cons.inj whole).2

omit [Fintype τ] [DecidableEq τ] in
/-- The predicate of a swap holds for the two nodes that it exchanges. -/
theorem Placed.needed (placed : Placed s roles data w) {index : ℕ} {prev a b : Node}
    (point : w.pc t = .swap (.storeB index prev a b)) :
    ∃ needSwap swapCounter, roles t = .swap needSwap swapCounter ∧
      needSwap (s.value a).strlen (s.value b).strlen = true := by
  have runs := (placed.located t).runs
  rw [point] at runs
  cases role : roles t with
  | swap needSwap swapCounter =>
      rw [role] at runs
      exact ⟨needSwap, swapCounter, rfl, runs⟩
  | traverse matchPred iterCounter pairsCounter =>
      rw [role] at runs
      exact runs.elim
  | monitor =>
      rw [role] at runs
      exact runs.elim

/-- The last store of a swap. -/
theorem Placed.storeB_step (placed : Placed s roles data w)
    (sound : Sound (Conflicts v roles) (w.view s data)) {rand index : ℕ} {prev a b : Node}
    (point : w.pc t = .swap (.storeB index prev a b))
    (moved : w.step v s roles (t, rand) = some next) :
    next.swapped = w.swapped ++ [(t, index)] ∧
      ∃ front back, w.listed data = front ++ a :: b :: back ∧ front.length = index ∧
        next.listed data = front ++ b :: a :: back := by
  obtain ⟨effect, pc', coded, performed⟩ := World.step_cases moved
  obtain ⟨needSwap, swapCounter, role, _⟩ := placed.needed point
  simp only [role, point] at coded
  obtain ⟨rfl, rfl⟩ := Prod.mk.inj (Option.some.inj coded)
  obtain rfl := Option.some.inj performed
  refine ⟨rfl, ?_⟩
  obtain ⟨front, back, split, length⟩ := placed.site sound point
  have order := World.order_complete s data w t b (some a) index
    (.swap (.count prev a b (.lock swapCounter)))
  rw [exchange_site split length] at order
  -- the sentinel is the first of the nodes up to `prev`
  obtain ⟨inner, shifted⟩ : ∃ inner, front ++ [prev] = s.first :: inner := by
    cases front with
    | nil => exact ⟨[], by rw [(List.cons.inj split).1]; rfl⟩
    | cons x front => exact ⟨front ++ [prev], by rw [(List.cons.inj split).1]; rfl⟩
  have counted := congrArg List.length shifted
  simp only [List.length_append, List.length_cons, List.length_nil] at counted
  exact ⟨inner, back, behind_first split shifted, by omega, behind_first order shifted⟩

/-- **Swaps are linearizable.** In every state that any number of threads reach on a list
that `storage_init` has built: no call has missed a node; where no swap is between its
first and its last store, the chain is the list of the swaps completed so far, each applied
at its index, and a permutation of the `n` nodes; and a step either leaves this list alone
or is the last store of a swap, which exchanges its two nodes, at its index and behind. -/
theorem swaps_linearizable {calls : Calls} {n : ℤ} (built : storageInit v calls n = .ok (some s))
    (reached : Reaches (World.step v s roles) (World.start s roles) w) :
    (∀ t, ¬ (w.pc t).Missing) ∧
      ((∀ t, (w.pc t).hidden = none) →
        Chain w.next s.first (w.listed (List.range' 1 n.toNat)) ∧
          (w.listed (List.range' 1 n.toNat)).Nodup ∧
          (w.listed (List.range' 1 n.toNat)).Perm (List.range' 1 n.toNat)) ∧
      (∀ label next, w.step v s roles label = some next →
        (∀ index prev a b, w.pc label.1 ≠ .swap (.storeB index prev a b)) →
          next.swapped = w.swapped) ∧
      ∀ t rand index prev a b next, w.pc t = .swap (.storeB index prev a b) →
        w.step v s roles (t, rand) = some next →
          next.swapped = w.swapped ++ [(t, index)] ∧
            ∃ front back, w.listed (List.range' 1 n.toNat) = front ++ a :: b :: back ∧
              front.length = index ∧
              next.listed (List.range' 1 n.toNat) = front ++ b :: a :: back := by
  have listed := storageInit_lists built
  obtain ⟨placed, sound⟩ := invariants listed reached
  refine ⟨fun t => (placed.located t).not_missing, fun settled => ?_, ?_, ?_⟩
  · have chain := placed.chain_settled sound settled
    exact ⟨chain, chain.nodup, w.listed_perm _⟩
  · exact fun label next moved other => placed.listed_step listed sound moved other
  · exact fun t rand index prev a b next point moved => placed.storeB_step sound point moved

/-- The theorem where the swap of the last two of three nodes has to wait for a traversal
that is ahead of it. -/
theorem swaps_linearizable_run : ∃ s w,
    storageInit .mutex ⟨id, fun _ => true, fun _ => true⟩ 3 = .ok (some s) ∧
      Reaches (World.step .mutex s swapAndTraverse) (World.start s swapAndTraverse) w ∧
      w.swapped = [(0, 1)] ∧ Chain w.next s.first [1, 3, 2] := by
  have ran : ((storageInit .mutex ⟨id, fun _ => true, fun _ => true⟩ 3).toOption.join.bind fun s =>
      (run (World.step .mutex s swapAndTraverse) (World.start s swapAndTraverse)
        (List.replicate 4 (1, 0) ++ List.replicate 4 (0, 1) ++ List.replicate 5 (1, 0) ++
          List.replicate 5 (0, 1) ++ List.replicate 6 (1, 0) ++ List.replicate 10 (0, 1))).map
        fun w => (w.swapped, w.listed (List.range' 1 3),
          decide (∀ t, (w.pc t).hidden = none))) = some ([(0, 1)], [1, 3, 2], true) := by
    decide +kernel
  obtain ⟨s, w, built, reached, seen⟩ := exists_reaches ran
  simp only [Prod.mk.injEq, decide_eq_true_eq] at seen
  obtain ⟨swapped, list, settled⟩ := seen
  refine ⟨s, w, built, reached, swapped, ?_⟩
  rw [← list]
  exact ((swaps_linearizable built reached).2.1 settled).1

end OperationSystems.NodeList
