import Mathlib.Data.List.Nodup
import Mathlib.Algebra.Order.Group.Multiset
import Mathlib.Data.List.Range

/-!
# What was acquired and what was released

A program acquires items and releases them, and its threads hold what has not been
released yet. The book is balanced when what was released and what is held together
are what was acquired. Where nothing is held any more and no two items acquired are
the same, every item was released exactly once.
-/

namespace Ledger

variable {Item : Type*}

/-- The items acquired and released so far, oldest first. -/
structure Book (Item : Type*) where
  acquired : List Item := []
  released : List Item := []

namespace Book

def acquire (book : Book Item) (item : Item) : Book Item :=
  { book with acquired := book.acquired ++ [item] }

def release (book : Book Item) (item : Item) : Book Item :=
  { book with released := book.released ++ [item] }

/-- What was released and what is held are what was acquired. -/
def Balanced (book : Book Item) (held : Multiset Item) : Prop :=
  (book.released : Multiset Item) + held = book.acquired

variable {book : Book Item} {held : Multiset Item}

theorem Balanced.acquire (balanced : book.Balanced held) (item : Item) :
    (book.acquire item).Balanced (held + {item}) := by
  unfold Balanced at balanced ⊢
  change _ = ((book.acquired ++ [item] : List Item) : Multiset Item)
  rw [← Multiset.coe_add, ← balanced, add_assoc]
  rfl

theorem Balanced.release {item : Item} (balanced : book.Balanced (held + {item})) :
    (book.release item).Balanced held := by
  unfold Balanced at balanced ⊢
  change ((book.released ++ [item] : List Item) : Multiset Item) + held = _
  rw [← Multiset.coe_add, add_assoc, add_comm _ held]
  exact balanced

variable {held' before after : Multiset Item}

/-- A step that exchanges what its agent held `before` for what it holds `after`, where
these are the same. -/
theorem Balanced.keep (balanced : book.Balanced held) (exchange : held' + before = held + after)
    (same : after = before) : book.Balanced held' := by
  rw [same] at exchange
  rw [add_right_cancel exchange]
  exact balanced

/-- Where the agent has acquired an item. -/
theorem Balanced.gain (balanced : book.Balanced held) (exchange : held' + before = held + after)
    {item : Item} (more : after = before + {item}) : (book.acquire item).Balanced held' := by
  have grown : held' = held + {item} := by
    rw [more, ← add_assoc, add_right_comm] at exchange
    exact add_right_cancel exchange
  rw [grown]
  exact balanced.acquire item

/-- Where the agent has released an item. -/
theorem Balanced.loss (balanced : book.Balanced held) (exchange : held' + before = held + after)
    {item : Item} (less : before = after + {item}) : (book.release item).Balanced held' := by
  have shrunk : held = held' + {item} := by
    rw [less, ← add_assoc, add_right_comm] at exchange
    exact (add_right_cancel exchange).symm
  rw [shrunk] at balanced
  exact balanced.release

/-- Where nothing is held, what was released is what was acquired. -/
theorem Balanced.settled (balanced : book.Balanced 0) : book.released.Perm book.acquired := by
  unfold Balanced at balanced
  rw [add_zero] at balanced
  exact Multiset.coe_eq_coe.mp balanced

/-- The items are numbered in the order in which they were acquired. -/
def Numbered (number : Item → ℕ) (book : Book Item) : Prop :=
  book.acquired.map number = List.range book.acquired.length

variable {number : Item → ℕ}

/-- An item with the next number keeps the book numbered. -/
theorem Numbered.acquire (numbered : book.Numbered number) {item : Item}
    (next : number item = book.acquired.length) : (book.acquire item).Numbered number := by
  unfold Numbered at numbered ⊢
  change (book.acquired ++ [item]).map number = List.range (book.acquired ++ [item]).length
  rw [List.map_append, numbered, List.length_append, List.length_singleton, List.range_succ]
  simp [next]

/-- In a numbered book no item is acquired twice. -/
theorem Numbered.nodup (numbered : book.Numbered number) : book.acquired.Nodup := by
  apply List.Nodup.of_map number
  rw [numbered]
  exact List.nodup_range

end Book

end Ledger
