import Mathlib.Data.List.Chain
import Mathlib.Data.List.Perm.Basic
import Mathlib.Order.Lattice

/-!
# Inversions of a list

The pairs of elements that stand in the wrong order, by a key. An exchange of two
neighbours with different keys makes one inversion more or less, whatever stands around
them.
-/

namespace Inversions

variable {Item Key : Type*} [LinearOrder Key]

/-- The number of pairs of positions `i < j` such that the key at `i` is greater than that
at `j`. -/
def inversions (key : Item → Key) : List Item → ℕ
  | [] => 0
  | x :: rest => rest.countP (fun y => decide (key y < key x)) + inversions key rest

/-- What an exchange of neighbours does, it does to the list that begins with them. -/
theorem inversions_exchange (key : Item → Key) (front back : List Item) (a b : Item) :
    inversions key (front ++ a :: b :: back) + inversions key (b :: a :: back) =
      inversions key (front ++ b :: a :: back) + inversions key (a :: b :: back) := by
  induction front with
  | nil => exact Nat.add_comm _ _
  | cons x front ih =>
      have perm : (front ++ a :: b :: back).Perm (front ++ b :: a :: back) :=
        (List.Perm.swap b a back).append_left front
      simp only [List.cons_append, inversions, perm.countP_eq]
      simp only [inversions] at ih
      omega

/-- Exchanging an inversion removes it. -/
theorem inversions_of_gt (key : Item → Key) {a b : Item} (greater : key b < key a)
    (front back : List Item) :
    inversions key (front ++ a :: b :: back) = inversions key (front ++ b :: a :: back) + 1 := by
  have around := inversions_exchange key front back a b
  have pair : inversions key (a :: b :: back) = inversions key (b :: a :: back) + 1 := by
    simp only [inversions, List.countP_cons, greater, decide_true, if_true,
      not_lt_of_gt greater, decide_false]
    simp
    omega
  omega

/-- Exchanging two neighbours in order adds an inversion. -/
theorem inversions_of_lt (key : Item → Key) {a b : Item} (less : key a < key b)
    (front back : List Item) :
    inversions key (front ++ b :: a :: back) = inversions key (front ++ a :: b :: back) + 1 :=
  inversions_of_gt key less front back

/-- A list has no inversions if and only if it is sorted. -/
theorem inversions_eq_zero_iff {key : Item → Key} {list : List Item} :
    inversions key list = 0 ↔ list.Pairwise fun x y => key x ≤ key y := by
  induction list with
  | nil => simp [inversions]
  | cons x rest ih =>
      rw [inversions, Nat.add_eq_zero_iff, ih, List.pairwise_cons, List.countP_eq_zero]
      simp

/-- A list that is not sorted has two neighbours in the wrong order. -/
theorem exists_neighbours {key : Item → Key} {list : List Item}
    (unsorted : ¬ list.Pairwise fun x y => key x ≤ key y) :
    ∃ front a b back, list = front ++ a :: b :: back ∧ key b < key a := by
  by_contra none
  push Not at none
  have trans : Trans (fun x y => key x ≤ key y) (fun x y => key x ≤ key y)
      (fun x y : Item => key x ≤ key y) := ⟨le_trans⟩
  refine unsorted (List.isChain_iff_pairwise.mp ?_)
  exact List.isChain_iff_forall_rel_of_append_cons_cons.mpr fun _ _ _ _ => none _ _ _ _

end Inversions
