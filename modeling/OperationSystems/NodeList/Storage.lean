import OperationSystems.Foundation.CStrings
import OperationSystems.Foundation.LinkedCells

/-!
# The list that the threads share

`storage_init` of the mutex and of the rwlock program: a sentinel and `n` nodes with
random strings behind it, each with a lock of its own. The nodes are numbered in the
order in which they are allocated, the sentinel is 0.
-/

namespace OperationSystems.NodeList

open CStrings LinkedCells

/-- The address of a `Node`. -/
abbrev Node : Type := ℕ

/-- `sizeof(((Node *)0)->value)`. -/
def valueSize : ℕ := 100

/-- What `char value[100]` holds: a string that fits with its NUL. -/
structure Value where
  text : CString
  fits : text.bytes.length < valueSize

/-- `(int)strlen(value)`. The array is too short for the cast to lose anything. -/
def Value.strlen (v : Value) : ℤ := v.text.bytes.length

/-- `Storage`, with the `value` and `next` of its nodes. -/
structure Storage where
  first : Node
  count : ℕ
  value : Node → Value
  next : Node → Option Node

/-- The nodes met when following `next` from a node to NULL, that node not counted. -/
abbrev Chain (next : Node → Option Node) (first : Node) (data : List Node) : Prop :=
  Path id (fun x => some (next x)) first data

/-- `data` are the nodes behind the sentinel. -/
structure Storage.Lists (s : Storage) (data : List Node) : Prop where
  chain : Chain s.next s.first data
  count : s.count = data.length

/-- The two programs. Of the rwlocks it is left open whether a new reader waits behind a
writer that waits. -/
inductive Variant
  | mutex
  | rw (readersWait : Bool)
  deriving DecidableEq

/-- The function that initialises the lock of a node. -/
def Variant.lockInit : Variant → String
  | .mutex => "pthread_mutex_init"
  | .rw _ => "pthread_rwlock_init"

/-- What the library answers: the results of `rand` in turn, and whether the `malloc`
and the lock initialisation of that number succeed. -/
structure Calls where
  rand : ℕ → ℕ
  malloc : ℕ → Bool
  lockInit : ℕ → Bool

/-! ## `random_string` -/

def alphabet : List UInt8 := ascii "abcdefghijklmnopqrstuvwxyz"

def letter (r : ℕ) : UInt8 := alphabet.get ⟨r % alphabet.length, Nat.mod_lt r (by decide)⟩

/-- No letter is a terminator. -/
theorem letter_ne_zero (r : ℕ) : letter r ≠ 0 := by
  have letters : ∀ c ∈ alphabet, c ≠ 0 := by decide +kernel
  exact letters _ (List.get_mem alphabet _)

/-- `random_string`, with the number of results of `rand` used before and after. -/
def randomString (rand : ℕ → ℕ) (used : ℕ) : Value × ℕ :=
  let len := 1 + rand used % (valueSize - 1)
  ({ text := ⟨(List.range len).map fun i => letter (rand (used + 1 + i)), by
        intro zero
        obtain ⟨i, _, same⟩ := List.mem_map.mp zero
        exact letter_ne_zero _ same⟩
     fits := by
        have small : rand used % (valueSize - 1) < valueSize - 1 := Nat.mod_lt _ (by decide)
        simp only [List.length_map, List.length_range]
        omega },
    used + 1 + len)

/-! ## `storage_init` -/

/-- The loop of `storage_init` from the node of number `i`, behind `prev`. -/
def appendNodes (v : Variant) (calls : Calls) : ℕ → ℕ → ℕ → Node → Storage → Except String Storage
  | 0, _, _, _, s => .ok s
  | remaining + 1, i, used, prev, s =>
      if calls.malloc (i + 2) = false then .error "malloc node"
      else
        let node := i + 1
        let (value, used) := randomString calls.rand used
        if calls.lockInit (i + 1) = false then .error (v.lockInit ++ " node")
        else
          appendNodes v calls remaining (i + 1) used node
            { s with
              value := Function.update s.value node value
              next := Function.update (Function.update s.next node none) prev (some node) }

/-- The storage with only its sentinel. -/
def sentinelOnly (n : ℤ) : Storage where
  first := 0
  count := n.toNat
  value := fun _ => ⟨⟨[], by decide⟩, by decide⟩
  next := fun _ => none

/-- `storage_init`. An error is what it prints before it ends the program. -/
def storageInit (v : Variant) (calls : Calls) (n : ℤ) : Except String (Option Storage) :=
  if n ≤ 0 then .ok none
  else if calls.malloc 0 = false then .error "malloc storage"
  else if calls.malloc 1 = false then .error "malloc first"
  else if calls.lockInit 0 = false then .error (v.lockInit ++ " first")
  else (appendNodes v calls n.toNat 0 0 0 (sentinelOnly n)).map some

/-- What the loop has built when the nodes up to `last` are linked. -/
structure Building (s : Storage) (last : Node) : Prop where
  first : s.first = 0
  chain : Chain s.next 0 (List.range' 1 last)

theorem lastCell_range' (last : ℕ) : lastCell id 0 (List.range' 1 last) = last := by
  unfold lastCell
  cases last with
  | zero => rfl
  | succ last =>
      rw [List.getLast?_range']
      simp

/-- One turn of the loop links the next node behind the last one. -/
theorem Building.link {s : Storage} {last : Node} (building : Building s last) (value : Value) :
    Building { s with
      value := Function.update s.value (last + 1) value
      next := Function.update (Function.update s.next (last + 1) none) last (some (last + 1)) }
      (last + 1) := by
  have bounds : ∀ node ∈ List.range' 1 last, 1 ≤ node ∧ node < 1 + last := by
    intro node member
    exact List.mem_range'_1.mp member
  -- the node that is linked is not yet on the chain
  have cleared : Chain (Function.update s.next (last + 1) none) 0 (List.range' 1 last) := by
    refine building.chain.transfer ?_ fun node member => ?_
    · rw [Function.update_of_ne (Nat.succ_ne_zero last).symm]
    · have away : node ≠ last + 1 :=
        Nat.ne_of_lt (Nat.add_comm 1 last ▸ (bounds node member).2)
      simp only [id_eq, Function.update_of_ne away]
  refine ⟨building.first, ?_⟩
  rw [List.range'_1_concat, Nat.add_comm 1 last]
  apply cleared.append Function.injective_id
  · intro node member
    exact Nat.one_le_iff_ne_zero.mp (bounds node member).1
  · rw [lastCell_range']
    simp
  · simp
  · intro place away
    rw [lastCell_range'] at away
    simp only [Function.update_of_ne away]

/-- The loop of `storage_init` appends one node behind the other. -/
theorem appendNodes_building {v : Variant} {calls : Calls} {remaining used last : ℕ}
    {s built : Storage} (building : Building s last)
    (made : appendNodes v calls remaining last used last s = .ok built) :
    Building built (last + remaining) ∧ built.count = s.count := by
  induction remaining generalizing last used s with
  | zero =>
      obtain rfl : s = built := Except.ok.inj made
      exact ⟨building, rfl⟩
  | succ remaining ih =>
      simp only [appendNodes] at made
      split_ifs at made
      obtain ⟨done, count⟩ := ih (building.link _) made
      exact ⟨by rwa [← Nat.add_assoc, Nat.add_right_comm], count⟩

/-- **What `storage_init` returns.** A chain of `n` nodes in the order in which they were
allocated. -/
theorem storageInit_lists {v : Variant} {calls : Calls} {n : ℤ} {s : Storage}
    (made : storageInit v calls n = .ok (some s)) : s.Lists (List.range' 1 n.toNat) := by
  unfold storageInit at made
  split_ifs at made
  · cases made
  cases loop : appendNodes v calls n.toNat 0 0 0 (sentinelOnly n) with
  | error message =>
      rw [loop] at made
      cases made
  | ok built =>
      rw [loop] at made
      obtain rfl : built = s := Option.some.inj (Except.ok.inj made)
      have begun : Building (sentinelOnly n) 0 := ⟨rfl, rfl⟩
      obtain ⟨building, count⟩ := appendNodes_building begun loop
      rw [Nat.zero_add] at building
      refine ⟨?_, ?_⟩
      · rw [building.first]
        exact building.chain
      · rw [count, List.length_range']
        rfl

end OperationSystems.NodeList
