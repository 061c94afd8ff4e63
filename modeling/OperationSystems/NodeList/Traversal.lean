import OperationSystems.NodeList.Walk

/-!
# A traversal sees every node exactly once

What a pass of `traverse_list` has visited and evaluated at each of its points. Nodes in
front of the traverser may have been exchanged with each other since it passed them, and
so may those behind it, but none can be carried across the nodes it holds: at the end of
the pass the visited nodes are those of the list, in some order.
-/

namespace OperationSystems.NodeList

open HandOverHand LinkedCells Transition

/-- The pairs of neighbours of a list. -/
def consecutive (list : List Node) : List (Node × Node) := list.zip list.tail

/-- One more node is one more pair. -/
theorem consecutive_append (list : List Node) (a b : Node) :
    consecutive (list ++ [a, b]) = consecutive (list ++ [a]) ++ [(a, b)] := by
  induction list with
  | nil => rfl
  | cons x list ih =>
      cases list with
      | nil => rfl
      | cons y list => exact congrArg (List.cons (x, y)) ih

/-- What the pass has visited and evaluated. -/
def TraversePc.Passing (first : Node) (data visited : List Node) (pairs : List (Node × Node)) :
    TraversePc → Prop
  | .lockFirst => True
  | .readFirst => visited = [first] ∧ pairs = []
  | .unlockEmpty => visited = [first] ∧ pairs = [] ∧ [].Perm data
  | .lockA _ => visited = [first] ∧ pairs = []
  | .unlockFirst a => visited = [first, a] ∧ pairs = []
  | .readNext a => ∃ seen, visited = first :: (seen ++ [a]) ∧ pairs = consecutive (seen ++ [a])
  | .lockB a _ => ∃ seen, visited = first :: (seen ++ [a]) ∧ pairs = consecutive (seen ++ [a])
  | .evaluate a b =>
      ∃ seen, visited = first :: (seen ++ [a, b]) ∧ pairs = consecutive (seen ++ [a])
  | .countPair a b _ =>
      ∃ seen, visited = first :: (seen ++ [a, b]) ∧ pairs = consecutive (seen ++ [a, b])
  | .unlockA a b =>
      ∃ seen, visited = first :: (seen ++ [a, b]) ∧ pairs = consecutive (seen ++ [a, b])
  | .unlockLast a =>
      ∃ seen, visited = first :: (seen ++ [a]) ∧ pairs = consecutive (seen ++ [a]) ∧
        (seen ++ [a]).Perm data
  | .countIteration _ =>
      ∃ seen, visited = first :: seen ∧ pairs = consecutive seen ∧ seen.Perm data

def Pc.Passing (first : Node) (data visited : List Node) (pairs : List (Node × Node)) : Pc → Prop
  | .traverse pc => pc.Passing first data visited pairs
  | _ => True

/-- What a step adds to the visited nodes. -/
def Effect.visits (held visited : List Node) : Effect → List Node
  | .lock x => if held = [] then [x] else visited ++ [x]
  | _ => visited

/-- What a step adds to the evaluated pairs. -/
def Effect.evaluates (held : List Node) (pairs : List (Node × Node)) :
    Effect → List (Node × Node)
  | .lock _ => if held = [] then [] else pairs
  | .evaluate a b => pairs ++ [(a, b)]
  | _ => pairs

section Step

variable {s : Storage} {next : Node → Option Node} {held visited data : List Node}
  {pairs : List (Node × Node)} {counters : Counter → ℤ} {matchPred : PairPredicate}
  {iterCounter pairsCounter : Counter}

/-- Every step of a pass. The second condition says that who has come to the last node has
visited them all. -/
theorem traverseList_passing {pc : TraversePc} (holds : held = pc.holds s.first)
    (passing : pc.Passing s.first data visited pairs)
    (ends : pc.walks = true → ∀ y, held = [y] → next y = none → visited.Perm (s.first :: data)) :
    (traverseList s matchPred iterCounter pairsCounter next counters pc).2.Passing s.first data
      ((traverseList s matchPred iterCounter pairsCounter next counters pc).1.visits held visited)
      ((traverseList s matchPred iterCounter pairsCounter next counters pc).1.evaluates held
        pairs) := by
  cases pc with
  | lockFirst => exact ⟨if_pos holds, if_pos holds⟩
  | readFirst =>
      cases read : next s.first with
      | none =>
          simp only [traverseList, read]
          have all := ends rfl s.first holds read
          exact ⟨passing.1, passing.2, (passing.1 ▸ all).cons_inv⟩
      | some a =>
          simp only [traverseList, read]
          exact passing
  | unlockEmpty => exact ⟨[], passing.1, passing.2.1, passing.2.2⟩
  | lockA a =>
      have going : held ≠ [] := by simp [holds, TraversePc.holds]
      exact ⟨by simp [traverseList, Effect.visits, going, passing.1],
        by simp [traverseList, Effect.evaluates, going, passing.2]⟩
  | unlockFirst a => exact ⟨[], passing.1, passing.2⟩
  | readNext a =>
      obtain ⟨seen, visits, evaluates⟩ := passing
      cases read : next a with
      | none =>
          simp only [traverseList, read]
          have all := ends rfl a holds read
          exact ⟨seen, visits, evaluates, (visits ▸ all).cons_inv⟩
      | some b =>
          simp only [traverseList, read]
          exact ⟨seen, visits, evaluates⟩
  | lockB a b =>
      obtain ⟨seen, visits, evaluates⟩ := passing
      have going : held ≠ [] := by simp [holds, TraversePc.holds]
      exact ⟨seen, by simp [traverseList, Effect.visits, going, visits],
        by simp [traverseList, Effect.evaluates, going, evaluates]⟩
  | evaluate a b =>
      obtain ⟨seen, visits, evaluates⟩ := passing
      have more : pairs ++ [(a, b)] = consecutive (seen ++ [a, b]) := by
        rw [evaluates, consecutive_append]
      simp only [traverseList]
      split
      · exact ⟨seen, visits, more⟩
      · exact ⟨seen, visits, more⟩
  | countPair a b call => cases call <;> exact passing
  | unlockA a b =>
      obtain ⟨seen, visits, evaluates⟩ := passing
      exact ⟨seen ++ [a], by simp [traverseList, Effect.visits, visits],
        by simp [traverseList, Effect.evaluates, evaluates]⟩
  | unlockLast a =>
      obtain ⟨seen, visits, evaluates, perm⟩ := passing
      exact ⟨seen ++ [a], visits, evaluates, perm⟩
  | countIteration call =>
      cases call with
      | unlock p => trivial
      | _ => exact passing

end Step

variable {τ : Type*} [Fintype τ] [DecidableEq τ] {v : Variant} {s : Storage} {roles : τ → Role}
  {data : List Node} {w next : World τ} {t : τ} {pc' : Pc} {effect : Effect}

/-- A step of a thread carries out its effect, or the thread sleeps. -/
theorem World.perform_own (performed : w.perform v s roles t pc' effect = some next) :
    (next.pc t = pc' ∧ next.visited t = effect.visits (w.held t) (w.visited t) ∧
        next.pairs t = effect.evaluates (w.held t) (w.pairs t)) ∨
      (next.pc t = w.pc t ∧ next.visited t = w.visited t ∧ next.pairs t = w.pairs t) := by
  cases effect with
  | lock x =>
      obtain ⟨_, rfl⟩ | ⟨_, rfl⟩ := perform_lock performed
      · exact .inl ⟨Function.update_self .., Function.update_self .., Function.update_self ..⟩
      · exact .inr ⟨rfl, rfl, rfl⟩
  | lockCounters =>
      obtain ⟨_, rfl⟩ := perform_lockCounters performed
      exact .inl ⟨Function.update_self .., rfl, rfl⟩
  | evaluate a b =>
      obtain rfl := Option.some.inj performed
      exact .inl ⟨Function.update_self .., rfl, Function.update_self ..⟩
  | _ =>
      obtain rfl := Option.some.inj performed
      exact .inl ⟨Function.update_self .., rfl, rfl⟩

/-- What all passes have visited and evaluated so far. -/
def Passes (s : Storage) (data : List Node) (w : World τ) : Prop :=
  ∀ t, (w.pc t).Passing s.first data (w.visited t) (w.pairs t)

omit [Fintype τ] [DecidableEq τ] in
/-- What the code of a thread makes of its pass. -/
theorem Placed.passing {rand : ℕ} (placed : Placed s roles data w)
    (sound : Sound (Conflicts v roles) (w.view s data))
    (coded : w.code s rand (roles t) (w.pc t) = some (effect, pc'))
    (passing : (w.pc t).Passing s.first data (w.visited t) (w.pairs t)) :
    pc'.Passing s.first data (effect.visits (w.held t) (w.visited t))
      (effect.evaluates (w.held t) (w.pairs t)) := by
  have ends : (w.pc t).walks = true → ∀ y, y ∉ (w.pc t).disturbed → w.held t = [y] →
      w.next y = none → (w.visited t).Perm (s.first :: data) := by
    intro walks y undisturbed last read
    have successor := placed.sees sound walks (by simp [last]) undisturbed
    rw [read] at successor
    have perm := (sound.underway t walks).perm sound.nodup
      (last.trans (List.nil_append [y]).symm) successor
    exact perm.trans ((w.listed_perm data).cons s.first)
  exact World.code_cases
    (motive := fun _ pc effect pc' => w.held t = pc.holds s.first →
      pc.Passing s.first data (w.visited t) (w.pairs t) →
      (pc.walks = true → ∀ y, y ∉ pc.disturbed → w.held t = [y] → w.next y = none →
        (w.visited t).Perm (s.first :: data)) →
      pc'.Passing s.first data (effect.visits (w.held t) (w.visited t))
        (effect.evaluates (w.held t) (w.pairs t)))
    (fun _ _ _ _ holds passing ends => traverseList_passing holds passing fun walks y =>
      ends walks y List.not_mem_nil)
    (fun _ _ _ _ _ _ => trivial) (fun _ _ _ _ => trivial) coded (placed.located t).held passing
    ends

/-- **The step lemma.** A walk evaluates the next pair. -/
theorem Passes.step {label : τ × ℕ} (placed : Placed s roles data w)
    (sound : Sound (Conflicts v roles) (w.view s data)) (passes : Passes s data w)
    (moved : w.step v s roles label = some next) : Passes s data next := by
  obtain ⟨effect, pc', coded, performed⟩ := World.step_cases moved
  intro t
  by_cases self : t = label.1
  · subst self
    obtain ⟨there, visited, pairs⟩ | ⟨there, visited, pairs⟩ := World.perform_own performed
    · rw [there, visited, pairs]
      exact placed.passing sound coded (passes label.1)
    · rw [there, visited, pairs]
      exact passes label.1
  · obtain ⟨there, visited, pairs⟩ := World.perform_others self performed
    rw [there, visited, pairs]
    exact passes t

/-- **The run lemma.** Every walk has evaluated the pairs behind it. -/
theorem passes (listed : s.Lists data)
    (reached : Reaches (World.step v s roles) (World.start s roles) w) : Passes s data w := by
  induction reached with
  | start =>
      intro t
      change (roles t).begin.Passing s.first data [] []
      cases roles t <;> trivial
  | step label before _ moved ih =>
      obtain ⟨placed, sound⟩ := invariants listed before
      exact ih.step placed sound moved

/-- The pass has left the inner loop, or found the list empty. -/
def TraversePc.finished : TraversePc → Bool
  | .unlockLast _ => true
  | .countIteration _ => true
  | _ => false

omit [Fintype τ] [DecidableEq τ] in
/-- What the thread is about to evaluate are neighbours in memory. -/
theorem Placed.evaluates (placed : Placed s roles data w)
    (sound : Sound (Conflicts v roles) (w.view s data)) {a b : Node}
    (point : w.pc t = .traverse (.evaluate a b)) : w.next a = some b := by
  have held : w.held t = [a, b] := by
    rw [(placed.located t).held, point]
    rfl
  have walks : (w.pc t).walks = true := by
    rw [point]
    rfl
  have undisturbed : a ∉ (w.pc t).disturbed := by
    rw [point]
    exact List.not_mem_nil
  have read := placed.sees sound walks (by simp [held]) undisturbed
  obtain ⟨_, front, back, _, split, _, _⟩ := sound.underway t walks
  have site : w.order s data = front ++ a :: b :: back := by
    change w.order s data = front ++ w.held t ++ back at split
    rw [split, held]
    simp
  exact read.unique sound.nodup (.of_append site)

end OperationSystems.NodeList
