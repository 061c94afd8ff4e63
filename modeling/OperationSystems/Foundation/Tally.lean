import Mathlib.Algebra.BigOperators.Group.Finset.Piecewise
import Mathlib.Algebra.Order.BigOperators.Group.Finset
import Mathlib.Data.Fintype.Card
import Mathlib.Logic.Function.Basic

/-!
# Totals over agents

The weight of all agents of a concurrent program, each weighed by where it is,
and what it becomes when one agent moves on. Weights that are 0 or 1 count the
agents at some points; other weights measure the work that is left.
-/

namespace Tally

variable {Agent Value Weight : Type*} [Fintype Agent]

section Sum

variable [AddCommMonoid Weight]

/-- The total weight of all agents. -/
def tally (weight : Value → Weight) (value : Agent → Value) : Weight :=
  ∑ agent, weight (value agent)

/-- One agent's move exchanges its old weight for its new one. -/
theorem tally_update [DecidableEq Agent] (weight : Value → Weight) (value : Agent → Value)
    (agent : Agent) (now : Value) :
    tally weight (Function.update value agent now) + weight (value agent) =
      tally weight value + weight now := by
  have rest : ∑ other ∈ Finset.univ.erase agent,
        weight (Function.update value agent now other) =
      ∑ other ∈ Finset.univ.erase agent, weight (value other) := by
    refine Finset.sum_congr rfl fun other member => ?_
    rw [Function.update_of_ne (Finset.ne_of_mem_erase member)]
  rw [tally, tally, ← Finset.add_sum_erase _ _ (Finset.mem_univ agent), rest,
    ← Finset.add_sum_erase _ (fun other => weight (value other)) (Finset.mem_univ agent),
    Function.update_self, add_comm, add_comm (weight now), ← add_assoc]

/-- A move that keeps the agent's weight keeps the total. -/
theorem tally_update_same [DecidableEq Agent] {weight : Value → Weight} {value : Agent → Value}
    {agent : Agent} {now : Value} (same : weight now = weight (value agent)) :
    tally weight (Function.update value agent now) = tally weight value := by
  refine Finset.sum_congr rfl fun other _ => ?_
  by_cases self : other = agent
  · subst self
    rw [Function.update_self, same]
  · rw [Function.update_of_ne self]

/-- Agents that all weigh nothing weigh nothing together. -/
theorem tally_eq_zero {weight : Value → Weight} {value : Agent → Value}
    (none : ∀ agent, weight (value agent) = 0) : tally weight value = 0 :=
  Finset.sum_eq_zero fun agent _ => none agent

end Sum

variable {weight : Value → ℕ} {value : Agent → Value}

/-- A tally is positive exactly where somebody contributes. -/
theorem tally_pos_iff : 0 < tally weight value ↔ ∃ agent, 0 < weight (value agent) := by
  unfold tally
  rw [Nat.pos_iff_ne_zero, Ne, Finset.sum_eq_zero_iff]
  simp [Nat.pos_iff_ne_zero]

end Tally
