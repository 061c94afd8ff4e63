import OperationSystems.Foundation.CArrays
import OperationSystems.NodeList.Storage

/-!
# The three list builders

`storage_init` of the mutex, the rwlock and the spinlock program on the memory they write:
arrays of 100 bytes, `next` pointers, and whatever `malloc` left in both. The copies differ
in the call that initialises a lock, and the spinlock program starts its loop with
`prev == NULL`. The first two build the list that the threads rely on; the third one stores
through the null pointer in its first turn.
-/

namespace OperationSystems.NodeList

namespace Builders

open CStrings CArrays

/-- The fields of the nodes, written to or not. -/
structure Heap where
  value : Node → CArray valueSize
  next : Node → Option Node

/-- `Storage`, and the nodes. -/
structure RawStorage where
  first : Node
  count : ℤ
  heap : Heap

/-- How `storage_init` can end the program. -/
inductive Failure
  | exits (message : String)
  | outsideArray
  | nullDereference

/-- An access to an array. -/
def access {α : Type} : Option α → Except Failure α
  | some a => .ok a
  | none => .error .outsideArray

/-- The loop of `random_string`. -/
def fillLetters {size : ℕ} (rand : ℕ → ℕ) : ℕ → ℕ → ℕ → CArray size → Option (CArray size)
  | 0, _, _, buf => some buf
  | left + 1, i, used, buf =>
      (buf.store i (letter (rand used))).bind (fillLetters rand left (i + 1) (used + 1))

/-- `random_string`, with the number of results of `rand` used before and after. -/
def randomString {size : ℕ} (rand : ℕ → ℕ) (used : ℕ) (buf : CArray size) :
    Option (CArray size × ℕ) :=
  let maxlen := size - 1
  let len := 1 + rand used % maxlen
  (fillLetters rand len 0 (used + 1) buf).bind fun buf =>
    (buf.store len 0).map fun buf => (buf, used + 1 + len)

namespace Heap

def setValue (heap : Heap) (node : Node) (value : CArray valueSize) : Heap :=
  { heap with value := Function.update heap.value node value }

def setNext (heap : Heap) (node : Node) (next : Option Node) : Heap :=
  { heap with next := Function.update heap.next node next }

end Heap

/-- The loop of `storage_init` from the node of number `i`, behind `prev`. -/
def appendNodes (lockInit : String) (calls : Calls) :
    ℕ → ℕ → ℕ → Option Node → Heap → Except Failure Heap
  | 0, _, _, _, heap => .ok heap
  | remaining + 1, i, used, prev, heap =>
      if calls.malloc (i + 2) = false then .error (.exits "malloc node")
      else do
        let node := i + 1
        let (value, used) ← access (randomString calls.rand used (heap.value node))
        let heap := (heap.setValue node value).setNext node none
        if calls.lockInit (i + 1) = false then throw (.exits (lockInit ++ " node"))
        match prev with
        | none => throw .nullDereference
        | some prev =>
            appendNodes lockInit calls remaining (i + 1) used (some node)
              (heap.setNext prev (some node))

/-- `storage_init`, where `prev` is what the loop starts with and `heap` what lies in the
memory that `malloc` hands out. -/
def storageInit (lockInit : String) (prev : Option Node) (calls : Calls) (heap : Heap) (n : ℤ) :
    Except Failure (Option RawStorage) :=
  if n ≤ 0 then .ok none
  else if calls.malloc 0 = false then .error (.exits "malloc storage")
  else if calls.malloc 1 = false then .error (.exits "malloc first")
  else do
    let first : Node := 0
    let value ← access ((heap.value first).store 0 0)
    let heap := (heap.setValue first value).setNext first none
    if calls.lockInit 0 = false then throw (.exits (lockInit ++ " first"))
    let heap ← appendNodes lockInit calls n.toNat 0 0 prev heap
    return some { first := first, count := n, heap := heap }

/-- `mutex/list.c`. -/
def storageInitMutex : Calls → Heap → ℤ → Except Failure (Option RawStorage) :=
  storageInit "pthread_mutex_init" (some 0)

/-- `rw/list.c`. -/
def storageInitRw : Calls → Heap → ℤ → Except Failure (Option RawStorage) :=
  storageInit "pthread_rwlock_init" (some 0)

/-- `spinlock/list.c`, where `prev` starts as NULL. -/
def storageInitSpin : Calls → Heap → ℤ → Except Failure (Option RawStorage) :=
  storageInit "pthread_spin_init" none

/-! ## Random strings in their arrays -/

section Strings

variable {size : ℕ} {rand : ℕ → ℕ} {buf : CArray size} {text : List UInt8}

/-- The loop of `random_string` stays inside an array with room for its letters. -/
theorem fillLetters_holds {left i used : ℕ} (holds : buf.Holds text) (place : text.length = i)
    (room : i + left ≤ size) : ∃ next, fillLetters rand left i used buf = some next ∧
      next.Holds (text ++ (List.range left).map fun k => letter (rand (used + k))) := by
  induction left generalizing text i used buf with
  | zero =>
      refine ⟨buf, rfl, ?_⟩
      rw [List.range_zero, List.map_nil, List.append_nil]
      exact holds
  | succ left ih =>
      subst place
      obtain ⟨stored, done, holds'⟩ := holds.push (letter (rand used)) (by omega)
      obtain ⟨next, filled, whole⟩ := @ih stored (text ++ [letter (rand used)]) (text.length + 1)
        (used + 1) holds' (by simp) (by omega)
      refine ⟨next, ?_, ?_⟩
      · rw [fillLetters, done]
        exact filled
      · have letters : (List.range (left + 1)).map (fun k => letter (rand (used + k))) =
            letter (rand used) :: (List.range left).map fun k => letter (rand (used + 1 + k)) := by
          rw [List.range_succ_eq_map, List.map_cons, List.map_map]
          apply congrArg (letter (rand used) :: ·)
          apply List.map_congr_left
          intro k _
          rw [Function.comp_apply, Nat.succ_eq_add_one, Nat.add_right_comm, Nat.add_assoc]
        rw [letters, ← List.singleton_append, ← List.append_assoc]
        exact whole

/-- `random_string` stays inside the array and leaves its string there. -/
theorem randomString_holds (rand : ℕ → ℕ) (used : ℕ) (buf : CArray valueSize) : ∃ next,
    randomString rand used buf = some (next, (NodeList.randomString rand used).2) ∧
      next.Holds ((NodeList.randomString rand used).1.text.bytes ++ [0]) := by
  have small : rand used % (valueSize - 1) < valueSize - 1 := Nat.mod_lt _ (by decide)
  obtain ⟨filled, done, holds⟩ := @fillLetters_holds _ rand buf []
    (1 + rand used % (valueSize - 1)) 0 (used + 1) List.nil_prefix rfl (by omega)
  rw [List.nil_append] at holds
  obtain ⟨next, closed, whole⟩ := holds.push 0 (by
    rw [List.length_map, List.length_range]
    omega)
  rw [List.length_map, List.length_range] at closed
  refine ⟨next, ?_, whole⟩
  simp only [randomString, done, Option.bind_some, closed, Option.map_some]
  rfl

/-- `random_string` makes a string that is not empty. -/
theorem length_randomString (rand : ℕ → ℕ) (used : ℕ) :
    1 ≤ (NodeList.randomString rand used).1.text.bytes.length := by
  simp only [NodeList.randomString, List.length_map, List.length_range]
  exact Nat.le_add_right _ _

/-- The string in the `value` of a node. -/
theorem loadString_value {value : CArray valueSize} {string : CString}
    (holds : value.Holds (string.bytes ++ [0])) : loadString value.bytes 0 = some string := by
  apply holds.loadString
  exact loadString_eq_some_iff.mpr ⟨[], by simp⟩

end Strings

/-! ## The builders that start behind the sentinel -/

/-- The nodes up to `last` are those of a storage. -/
structure Represents (heap : Heap) (s : Storage) (last : Node) : Prop where
  next : ∀ node ≤ last, heap.next node = s.next node
  value : ∀ node ≤ last, (heap.value node).Holds ((s.value node).text.bytes ++ [0])

section Loop

variable {v : Variant} {calls : Calls} {heap : Heap} {s : Storage} {last : Node}

/-- One turn of the loop. -/
theorem Represents.link (represents : Represents heap s last) {array : CArray valueSize}
    {value : Value} (holds : array.Holds (value.text.bytes ++ [0])) :
    Represents (((heap.setValue (last + 1) array).setNext (last + 1) none).setNext last
      (some (last + 1)))
      { s with
        value := Function.update s.value (last + 1) value
        next := Function.update (Function.update s.next (last + 1) none) last (some (last + 1)) }
      (last + 1) := by
  constructor
  · intro node inside
    change Function.update (Function.update heap.next (last + 1) none) last _ node =
      Function.update (Function.update s.next (last + 1) none) last _ node
    by_cases linked : node = last
    · rw [linked, Function.update_self, Function.update_self]
    · rw [Function.update_of_ne linked, Function.update_of_ne linked]
      by_cases new : node = last + 1
      · rw [new, Function.update_self, Function.update_self]
      · rw [Function.update_of_ne new, Function.update_of_ne new]
        exact represents.next node (Nat.le_of_lt_succ (lt_of_le_of_ne inside new))
  · intro node inside
    change (Function.update heap.value (last + 1) array node).Holds
      ((Function.update s.value (last + 1) value node).text.bytes ++ [0])
    by_cases new : node = last + 1
    · rw [new, Function.update_self, Function.update_self]
      exact holds
    · rw [Function.update_of_ne new, Function.update_of_ne new]
      exact represents.value node (Nat.le_of_lt_succ (lt_of_le_of_ne inside new))

/-- The loop behaves as its description: it ends the program with the same message, or it
builds the same nodes. -/
theorem appendNodes_represents {remaining used : ℕ} (represents : Represents heap s last) :
    (∀ message, NodeList.appendNodes v calls remaining last used last s = .error message →
      appendNodes v.lockInit calls remaining last used (some last) heap =
        .error (.exits message)) ∧
    ∀ built, NodeList.appendNodes v calls remaining last used last s = .ok built →
      ∃ made, appendNodes v.lockInit calls remaining last used (some last) heap = .ok made ∧
        Represents made built (last + remaining) := by
  induction remaining generalizing last used heap s with
  | zero =>
      constructor
      · intro message failed
        cases failed
      · intro built done
        obtain rfl := Except.ok.inj done
        exact ⟨heap, rfl, represents⟩
  | succ remaining ih =>
      obtain ⟨array, filled, holds⟩ := randomString_holds calls.rand used (heap.value (last + 1))
      have later := @ih _ _ _ (NodeList.randomString calls.rand used).2 (represents.link holds)
      simp only [NodeList.appendNodes, appendNodes]
      by_cases malloc : calls.malloc (last + 2) = false
      · rw [if_pos malloc, if_pos malloc]
        constructor
        · intro message failed
          rw [Except.error.inj failed]
        · intro built done
          cases done
      rw [if_neg malloc, if_neg malloc, filled]
      by_cases init : calls.lockInit (last + 1) = false
      · rw [if_pos init]
        constructor
        · intro message failed
          rw [← Except.error.inj failed]
          simp only [access, init]
          rfl
        · intro built done
          cases done
      · have count : last + (remaining + 1) = last + 1 + remaining := by
          rw [Nat.add_comm remaining, Nat.add_assoc]
        rw [if_neg init, count]
        simp only [access, init, bind, Except.bind, Bool.true_eq_false, ↓reduceIte]
        exact later

/-- The list begins at the sentinel. -/
theorem storageInit_first {n : ℤ} {built : Storage}
    (loop : NodeList.appendNodes v calls n.toNat 0 0 0 (sentinelOnly n) = .ok built) :
    built.first = 0 := by
  have begun : Building (sentinelOnly n) 0 := ⟨rfl, rfl⟩
  exact (appendNodes_building begun loop).1.first

/-- `storage_init` behaves as its description when its loop starts behind the sentinel. -/
theorem storageInit_represents {n : ℤ} {s : Storage}
    (made : NodeList.storageInit v calls n = .ok (some s)) : ∃ raw,
      storageInit v.lockInit (some 0) calls heap n = .ok (some raw) ∧ raw.first = 0 ∧
        s.first = 0 ∧ raw.count = n ∧ Represents raw.heap s n.toNat := by
  obtain ⟨cleared, stored, holds⟩ := @CArray.Holds.push _ (heap.value 0) [] 0 List.nil_prefix
    (by decide)
  have begun : Represents ((heap.setValue 0 cleared).setNext 0 none) (sentinelOnly n) 0 := by
    constructor
    · intro node inside
      obtain rfl := Nat.le_zero.mp inside
      change Function.update heap.next 0 none 0 = none
      rw [Function.update_self]
    · intro node inside
      obtain rfl := Nat.le_zero.mp inside
      change (Function.update heap.value 0 cleared 0).Holds [0]
      rw [Function.update_self]
      exact holds
  have zeroth : (heap.value 0).store 0 0 = some cleared := stored
  unfold NodeList.storageInit at made
  split_ifs at made with positive storage first lock
  · cases made
  cases loop : NodeList.appendNodes v calls n.toNat 0 0 0 (sentinelOnly n) with
  | error message =>
      rw [loop] at made
      cases made
  | ok built =>
      rw [loop] at made
      obtain rfl : built = s := Option.some.inj (Except.ok.inj made)
      obtain ⟨nodes, done, represents⟩ := (appendNodes_represents begun).2 built loop
      rw [Nat.zero_add] at represents
      refine ⟨⟨0, n, nodes⟩, ?_, rfl, storageInit_first loop, rfl, represents⟩
      unfold storageInit
      rw [if_neg positive, if_neg storage, if_neg first]
      simp only [zeroth, access, bind, Except.bind, lock, done]
      rfl

/-- Which locks the nodes have does not matter for what is built. -/
theorem appendNodes_variant {v' : Variant} {remaining used : ℕ} {built : Storage}
    (made : NodeList.appendNodes v calls remaining last used last s = .ok built) :
    NodeList.appendNodes v' calls remaining last used last s = .ok built := by
  induction remaining generalizing last used s with
  | zero => exact made
  | succ remaining ih =>
      simp only [NodeList.appendNodes] at made ⊢
      split_ifs at made ⊢
      exact ih made

/-- The strings of the nodes behind the sentinel are not empty. -/
def Filled (s : Storage) (last : Node) : Prop :=
  ∀ node, 1 ≤ node → node ≤ last → 1 ≤ (s.value node).text.bytes.length

/-- Every node that the loop appends has a string. -/
theorem Filled.appendNodes {remaining used : ℕ} {built : Storage} (filled : Filled s last)
    (made : NodeList.appendNodes v calls remaining last used last s = .ok built) :
    Filled built (last + remaining) := by
  induction remaining generalizing last used s with
  | zero =>
      obtain rfl := Except.ok.inj made
      exact filled
  | succ remaining ih =>
      simp only [NodeList.appendNodes] at made
      split_ifs at made
      have count : last + (remaining + 1) = last + 1 + remaining := by
        rw [Nat.add_comm remaining, Nat.add_assoc]
      rw [count]
      apply ih _ made
      intro node positive inside
      change 1 ≤ (Function.update s.value (last + 1) _ node).text.bytes.length
      by_cases new : node = last + 1
      · rw [new, Function.update_self]
        exact length_randomString calls.rand used
      · rw [Function.update_of_ne new]
        exact filled node positive (Nat.le_of_lt_succ (lt_of_le_of_ne inside new))

end Loop

/-- `malloc` and the lock initialisation succeed. -/
def Succeed (calls : Calls) : Prop := ∀ i, calls.malloc i = true ∧ calls.lockInit i = true

/-- Where all calls succeed the loop comes to its end. -/
theorem Succeed.appendNodes {calls : Calls} (succeed : Succeed calls) (v : Variant)
    {remaining used : ℕ} {last : Node} {s : Storage} :
    ∃ built, NodeList.appendNodes v calls remaining last used last s = .ok built := by
  induction remaining generalizing last used s with
  | zero => exact ⟨s, rfl⟩
  | succ remaining ih =>
      simp only [NodeList.appendNodes, (succeed _).1, (succeed _).2, Bool.true_eq_false,
        ↓reduceIte]
      exact ih

/-- Both programs describe the same storage. -/
theorem Succeed.storageInit {calls : Calls} (succeed : Succeed calls) {n : ℤ} (positive : 1 ≤ n) :
    ∃ s : Storage, (∀ v, NodeList.storageInit v calls n = .ok (some s)) ∧ Filled s n.toNat := by
  obtain ⟨built, made⟩ := @Succeed.appendNodes calls succeed .mutex n.toNat 0 0 (sentinelOnly n)
  refine ⟨built, fun v => ?_, ?_⟩
  · have some_nodes : ¬ n ≤ 0 := by omega
    have loop : NodeList.appendNodes v calls n.toNat 0 0 0 (sentinelOnly n) = .ok built :=
      appendNodes_variant made
    unfold NodeList.storageInit
    simp only [some_nodes, (succeed _).1, (succeed _).2, Bool.true_eq_false, ↓reduceIte, loop]
    rfl
  · have none : Filled (sentinelOnly n) 0 := fun node positive inside =>
      absurd (positive.trans inside) (by decide)
    have filled := none.appendNodes made
    rw [Nat.zero_add] at filled
    exact filled

/-! ## Whether the three agree -/

/-- What the threads rely on: `count` is `n`, and behind the sentinel there are exactly the
`n` nodes that were allocated, one after the other, each with a string of 1 to 99 bytes and
its NUL inside the array. -/
structure Built (s : RawStorage) (n : ℤ) : Prop where
  count : s.count = n
  chain : Chain s.heap.next s.first (List.range' 1 n.toNat)
  distinct : (s.first :: List.range' 1 n.toNat).Nodup
  strings : ∀ node ∈ List.range' 1 n.toNat, ∃ text : CString,
    loadString (s.heap.value node).bytes 0 = some text ∧
      1 ≤ text.bytes.length ∧ text.bytes.length ≤ 99

/-- The nodes of two storages hold the same strings. -/
def SameStrings (s t : RawStorage) (n : ℤ) : Prop :=
  ∀ node ∈ List.range' 1 n.toNat,
    loadString (s.heap.value node).bytes 0 = loadString (t.heap.value node).bytes 0

/-- The three builders return storages as the threads need them, with the same strings. -/
def BuildersAgree (calls : Calls) (mutexHeap rwHeap spinHeap : Heap) (n : ℤ) : Prop :=
  ∃ mutex rw spin, storageInitMutex calls mutexHeap n = .ok (some mutex) ∧
    storageInitRw calls rwHeap n = .ok (some rw) ∧
    storageInitSpin calls spinHeap n = .ok (some spin) ∧
    Built mutex n ∧ Built rw n ∧ Built spin n ∧
    SameStrings mutex rw n ∧ SameStrings mutex spin n

theorem mem_nodes {n : ℤ} {node : ℕ} (member : node ∈ List.range' 1 n.toNat) :
    1 ≤ node ∧ node ≤ n.toNat := by
  have inside := List.mem_range'_1.mp member
  omega

/-- Memory that holds a built list is as the threads need it. -/
theorem Built.of_represents {raw : RawStorage} {s : Storage} {n : ℤ}
    (lists : s.Lists (List.range' 1 n.toNat)) (filled : Filled s n.toNat)
    (start : raw.first = 0) (first : s.first = 0) (count : raw.count = n)
    (represents : Represents raw.heap s n.toNat) : Built raw n where
  count := count
  chain := by
    have chain := lists.chain
    rw [first] at chain
    rw [start]
    apply chain.transfer
    · rw [represents.next 0 (Nat.zero_le _)]
    · intro node member
      exact congrArg some (represents.next node (mem_nodes member).2)
  distinct := by
    rw [start, List.nodup_cons]
    exact ⟨fun member => absurd (mem_nodes member).1 (by decide), List.nodup_range'⟩
  strings := by
    intro node member
    obtain ⟨positive, inside⟩ := mem_nodes member
    refine ⟨(s.value node).text, loadString_value (represents.value node inside),
      filled node positive inside, ?_⟩
    exact Nat.le_of_lt_succ (s.value node).fits

/-- The mutex and the rwlock program build the same list. -/
theorem mutex_and_rw_agree {calls : Calls} (succeed : Succeed calls) (mutexHeap rwHeap : Heap)
    {n : ℤ} (positive : 1 ≤ n) : ∃ mutex rw,
      storageInitMutex calls mutexHeap n = .ok (some mutex) ∧
      storageInitRw calls rwHeap n = .ok (some rw) ∧ Built mutex n ∧ Built rw n ∧
      SameStrings mutex rw n := by
  obtain ⟨s, made, filled⟩ := succeed.storageInit positive
  obtain ⟨mutex, ran, start, first, count, represents⟩ :=
    @storageInit_represents .mutex calls mutexHeap n s (made .mutex)
  obtain ⟨rw, ran', start', _, count', represents'⟩ :=
    @storageInit_represents (.rw false) calls rwHeap n s (made (.rw false))
  have lists := storageInit_lists (made .mutex)
  refine ⟨mutex, rw, ran, ran', .of_represents lists filled start first count represents,
    .of_represents lists filled start' first count' represents', fun node member => ?_⟩
  rw [loadString_value (represents.value node (mem_nodes member).2),
    loadString_value (represents'.value node (mem_nodes member).2)]

/-- The spinlock program stores through NULL in the first turn of its loop. -/
theorem storageInitSpin_faults {calls : Calls} (succeed : Succeed calls) (heap : Heap) {n : ℤ}
    (positive : 1 ≤ n) : storageInitSpin calls heap n = .error .nullDereference := by
  obtain ⟨cleared, stored, _⟩ := @CArray.Holds.push _ (heap.value 0) [] 0 List.nil_prefix
    (by decide)
  have zeroth : (heap.value 0).store 0 0 = some cleared := stored
  obtain ⟨more, count⟩ : ∃ more, n.toNat = more + 1 := ⟨n.toNat - 1, by omega⟩
  have some_nodes : ¬ n ≤ 0 := by omega
  unfold storageInitSpin storageInit
  simp only [some_nodes, (succeed _).1, (succeed _).2, Bool.true_eq_false, ↓reduceIte, zeroth,
    access, bind, Except.bind, count, appendNodes]
  obtain ⟨array, filled, _⟩ := randomString_holds calls.rand 0
    (((heap.setValue 0 cleared).setNext 0 none).value (0 + 1))
  rw [filled]
  rfl

/-- So the three do not agree. -/
theorem not_buildersAgree {calls : Calls} (succeed : Succeed calls)
    (mutexHeap rwHeap spinHeap : Heap) {n : ℤ} (positive : 1 ≤ n) :
    ¬ BuildersAgree calls mutexHeap rwHeap spinHeap n := by
  rintro ⟨_, _, spin, _, _, built, _⟩
  rw [storageInitSpin_faults succeed spinHeap positive] at built
  cases built

/-- **The three builders never agree.** The first two build what the threads need, with the
same strings; the third one stores through NULL. -/
theorem builders_never_agree {calls : Calls} (succeed : Succeed calls)
    (mutexHeap rwHeap spinHeap : Heap) {n : ℤ} (positive : 1 ≤ n) :
    ¬ BuildersAgree calls mutexHeap rwHeap spinHeap n ∧
      storageInitSpin calls spinHeap n = .error .nullDereference ∧
      ∃ mutex rw, storageInitMutex calls mutexHeap n = .ok (some mutex) ∧
        storageInitRw calls rwHeap n = .ok (some rw) ∧ Built mutex n ∧ Built rw n ∧
        SameStrings mutex rw n :=
  ⟨not_buildersAgree succeed mutexHeap rwHeap spinHeap positive,
    storageInitSpin_faults succeed spinHeap positive,
    mutex_and_rw_agree succeed mutexHeap rwHeap positive⟩

/-- Memory full of one byte, with `next` pointers of old. -/
def heapOf (byte : UInt8) (next : Option Node) : Heap :=
  ⟨fun _ => ⟨List.replicate valueSize byte, List.length_replicate⟩, fun _ => next⟩

/-- A library whose calls succeed. -/
def countingCalls : Calls := ⟨id, fun _ => true, fun _ => true⟩

/-- The theorem at three nodes, of memory with different contents. -/
theorem builders_never_agree_run :
    ¬ BuildersAgree countingCalls (heapOf 0 none) (heapOf 120 (some 7)) (heapOf 255 none) 3 ∧
      storageInitSpin countingCalls (heapOf 255 none) 3 = .error .nullDereference ∧
      ∃ mutex rw, storageInitMutex countingCalls (heapOf 0 none) 3 = .ok (some mutex) ∧
        storageInitRw countingCalls (heapOf 120 (some 7)) 3 = .ok (some rw) ∧
        Built mutex 3 ∧ Built rw 3 ∧ SameStrings mutex rw 3 :=
  builders_never_agree (fun _ => ⟨rfl, rfl⟩) (heapOf 0 none) (heapOf 120 (some 7))
    (heapOf 255 none) (by decide)

/-- Already with one node they do not. -/
theorem null_stored_through : ¬ ∀ calls, Succeed calls → ∀ mutexHeap rwHeap spinHeap n, 1 ≤ n →
    BuildersAgree calls mutexHeap rwHeap spinHeap n := by
  intro agree
  have succeed : Succeed countingCalls := fun _ => ⟨rfl, rfl⟩
  have clear := heapOf 0 none
  exact not_buildersAgree succeed clear clear clear (by decide)
    (agree countingCalls succeed clear clear clear 1 (by decide))

end Builders

end OperationSystems.NodeList
