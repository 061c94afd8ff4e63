import Mathlib.Algebra.Group.Nat.Defs
import OperationSystems.Foundation.CStrings

/-!
# Cache entries

`cache_entry_t` and the functions of `cache/cache.c` that work on one entry:
creation, the append under `e->lock`, the two marks, and the hash of a key.
Sizes are `size_t` values, so additions and doublings are taken modulo `2^64`;
what keeps them from wrapping is part of the entry itself.
-/

namespace OperationSystems

open CStrings

/-- The largest size of an object, and of what `realloc` grants. -/
def ptrdiffMax : Nat := 2 ^ 63 - 1

/-- Addition of `size_t` values. -/
def sizeAdd (a b : Nat) : Nat := (a + b) % 2 ^ 64

/-- Subtraction of `size_t` values. -/
def sizeSub (a b : Nat) : Nat := (a + (2 ^ 64 - b % 2 ^ 64)) % 2 ^ 64

/-- Multiplication of `size_t` values. -/
def sizeMul (a b : Nat) : Nat := (a * b) % 2 ^ 64

/-- Two sizes that can be allocated add up without wrapping. -/
theorem sizeAdd_eq {a b : Nat} (left : a ≤ ptrdiffMax) (right : b ≤ ptrdiffMax) :
    sizeAdd a b = a + b := by
  unfold ptrdiffMax at left right
  exact Nat.mod_eq_of_lt (by omega)

/-- The difference of two sizes does not wrap where the first one is larger. -/
theorem sizeSub_eq {a b : Nat} (left : a ≤ ptrdiffMax) (right : b ≤ a) :
    sizeSub a b = a - b := by
  unfold ptrdiffMax at left
  unfold sizeSub
  omega

/-- A block of bytes in memory. -/
structure Block where
  bytes : List UInt8
  bounded : bytes.length ≤ ptrdiffMax
  deriving DecidableEq

namespace Cache

/-- The address of an entry. Addresses are not used again: a pointer to a
destroyed entry stays the pointer to that entry. -/
abbrev Ptr := Nat

/-- `cache_entry_t`, without its lock and condition variable. `data` is the
allocated block, of which the first `size` bytes are filled. `refcnt` is an `int`
of the source and has no bound here: see `CacheEntry.CountsInt`. -/
@[ext] structure CacheEntry where
  key : CString
  data : List UInt8
  size : Nat
  capacity : Nat
  complete : Bool
  failed : Bool
  refcnt : Int
  next : Option Ptr
  allocated : data.length = capacity
  fits : size ≤ capacity
  addressable : capacity ≤ ptrdiffMax

/-- `hash_key`. -/
def hashKey (s : CString) : UInt64 :=
  s.bytes.foldl (fun h c => ((h <<< 5) + h) + c.toUInt64) 5381

/-- What the calls inside `cache_entry_create` answer: `true` where they
succeed. -/
structure CreateAnswer where
  calloc : Bool
  strdup : Bool
  mutexInit : Bool
  condInit : Bool

/-- Every call succeeds. -/
def CreateAnswer.ok : CreateAnswer := ⟨true, true, true, true⟩

/-- The entry `cache_entry_create` fills in. -/
def freshEntry (key : CString) : CacheEntry where
  key := key
  data := []
  size := 0
  capacity := 0
  complete := false
  failed := false
  refcnt := 1
  next := none
  allocated := rfl
  fits := Nat.le_refl 0
  addressable := Nat.zero_le _

/-- `cache_entry_create`. -/
def cacheEntryCreate (answer : CreateAnswer) (key : CString) : Option CacheEntry :=
  if !answer.calloc then none
  else if !answer.strdup then none
  else if !answer.mutexInit then none
  else if !answer.condInit then none
  else some (freshEntry key)

/-- What `cache_entry_create` returns is a fresh entry. -/
theorem cacheEntryCreate_eq {answer : CreateAnswer} {key : CString} {e : CacheEntry}
    (created : cacheEntryCreate answer key = some e) : e = freshEntry key := by
  unfold cacheEntryCreate at created
  split_ifs at created
  exact (Option.some.inj created).symm

/-- What `realloc` answers: NULL, or a block whose added bytes are arbitrary. -/
abbrev ReallocAnswer := Option (Nat → UInt8)

/-- `realloc(data, newcap)`. It keeps the old bytes, and grants no object larger
than `PTRDIFF_MAX`. -/
def realloc (answer : ReallocAnswer) (data : List UInt8) (newcap : Nat) : Option (List UInt8) :=
  if newcap ≤ ptrdiffMax then
    answer.map fun added =>
      data.take newcap ++ (List.range' data.length (newcap - data.length)).map added
  else none

/-- A block that `realloc` returns has the size asked for and begins with the old contents.
-/
theorem realloc_spec {answer : ReallocAnswer} {data newdata : List UInt8} {newcap : Nat}
    (granted : realloc answer data newcap = some newdata) :
    newcap ≤ ptrdiffMax ∧ newdata.length = newcap ∧
      newdata.take (min data.length newcap) = data.take newcap := by
  unfold realloc at granted
  split_ifs at granted with bound
  obtain ⟨added, _, rfl⟩ := Option.map_eq_some_iff.mp granted
  refine ⟨bound, by simp; omega, ?_⟩
  have length : (data.take newcap).length = min data.length newcap := by
    rw [List.length_take, Nat.min_comm]
  rw [← length, List.take_left]

/-- `memcpy(data + offset, source, len)`. -/
def memcpy (data : List UInt8) (offset : Nat) (source : List UInt8) : List UInt8 :=
  data.take offset ++ source ++ data.drop (offset + source.length)

/-- A copy inside a block leaves its length. -/
theorem length_memcpy {data source : List UInt8} {offset : Nat}
    (inside : offset + source.length ≤ data.length) :
    (memcpy data offset source).length = data.length := by
  simp [memcpy]
  omega

/-- Behind a copy the block reads as before up to the offset, and as the source from there
on. -/
theorem take_memcpy {data source : List UInt8} {offset : Nat} (inside : offset ≤ data.length) :
    (memcpy data offset source).take (offset + source.length) = data.take offset ++ source := by
  have length : (data.take offset ++ source).length = offset + source.length := by
    simp [Nat.min_eq_left inside]
  rw [memcpy, ← length, List.take_left]

namespace CacheEntry

variable (e : CacheEntry)

/-- The entry with another reference count. -/
def withRefcnt (refcnt : Int) : CacheEntry := { e with refcnt := refcnt }

/-- The bytes stored so far, `data[0..size)`. -/
def stored : List UInt8 := e.data.take e.size

/-- The entry stores as many bytes as its size says. -/
theorem length_stored : e.stored.length = e.size := by
  rw [stored, List.length_take, e.allocated]
  exact Nat.min_eq_left e.fits

/-- The size is that of a block that can be allocated. -/
theorem size_le : e.size ≤ ptrdiffMax := e.fits.trans e.addressable

/-- The capacity `cache_append_data` asks for when `need` bytes do not fit. -/
def newcap (need : Nat) : Nat :=
  let doubled := if e.capacity ≠ 0 then sizeMul e.capacity 2 else 64 * 1024
  if doubled < need then need else doubled

/-- The new capacity suffices. -/
theorem need_le_newcap (need : Nat) : need ≤ e.newcap need := by
  unfold newcap
  dsimp only
  split_ifs <;> omega

/-- Lines 199 to 216: reallocate when `need` bytes do not fit, `none` when
`realloc` returns NULL. -/
def reserve (need : Nat) (answer : ReallocAnswer) : Option CacheEntry :=
  if more : e.capacity < need then
    match granted : realloc answer e.data (e.newcap need) with
    | none => none
    | some newdata => some
        { e with
          data := newdata
          capacity := e.newcap need
          allocated := (realloc_spec granted).2.1
          fits := e.fits.trans (more.le.trans (e.need_le_newcap need))
          addressable := (realloc_spec granted).1 }
  else some e

/-- Reserving makes the room asked for and changes nothing that is stored. -/
theorem reserve_spec {need : Nat} {answer : ReallocAnswer} {grown : CacheEntry}
    (granted : e.reserve need answer = some grown) :
    need ≤ grown.capacity ∧ grown.size = e.size ∧ grown.stored = e.stored ∧ grown.key = e.key ∧
      grown.complete = e.complete ∧ grown.failed = e.failed ∧ grown.refcnt = e.refcnt ∧
      grown.next = e.next := by
  unfold reserve at granted
  split at granted
  · rename_i more
    split at granted
    · cases granted
    · rename_i newdata given
      obtain rfl := Option.some.inj granted
      have larger : e.size ≤ e.newcap need := e.fits.trans (more.le.trans (e.need_le_newcap need))
      refine ⟨e.need_le_newcap need, rfl, ?_, rfl, rfl, rfl, rfl, rfl⟩
      have kept := congrArg (List.take e.size) (realloc_spec given).2.2
      rw [List.take_take, List.take_take, e.allocated, min_eq_left larger,
        min_eq_left (le_min e.fits larger)] at kept
      exact kept
  · obtain rfl := Option.some.inj granted
    exact ⟨by omega, rfl, rfl, rfl, rfl, rfl, rfl, rfl⟩

/-- The copy at the end of `cache_append_data`, into a block with room for it. -/
def fill (block : Block) (room : sizeAdd e.size block.bytes.length ≤ e.capacity) : CacheEntry :=
  { e with
    data := memcpy e.data e.size block.bytes
    size := sizeAdd e.size block.bytes.length
    allocated := by
      rw [sizeAdd_eq e.size_le block.bounded] at room
      rw [length_memcpy (by rw [e.allocated]; exact room), e.allocated]
    fits := room }

/-- Filling in a block appends it to what is stored. -/
theorem stored_fill (block : Block) (room : sizeAdd e.size block.bytes.length ≤ e.capacity) :
    (e.fill block room).stored = e.stored ++ block.bytes := by
  change (memcpy e.data e.size block.bytes).take (sizeAdd e.size block.bytes.length) = _
  rw [sizeAdd_eq e.size_le block.bounded, take_memcpy (by rw [e.allocated]; exact e.fits)]
  rfl

end CacheEntry

/-- `cache_append_data`, the part between taking and releasing `e->lock`, and
the value returned. The caller's block is NULL or in memory. -/
def cacheAppendData (e : CacheEntry) (data : Option Block) (answer : ReallocAnswer) :
    Int × CacheEntry :=
  match data with
  | none => (0, e)
  | some block =>
      if block.bytes.length = 0 then (0, e)
      else if e.failed then (-1, e)
      else
        match reserved : e.reserve (sizeAdd e.size block.bytes.length) answer with
        | none => (-1, { e with failed := true })
        | some grown => (0, grown.fill block (by
            obtain ⟨room, size, _⟩ := e.reserve_spec reserved
            rw [size]
            exact room))

/-- `cache_mark_complete`, under `e->lock`. -/
def cacheMarkComplete (e : CacheEntry) : CacheEntry := { e with complete := true }

/-- `cache_mark_failed`, under `e->lock`. -/
def cacheMarkFailed (e : CacheEntry) : CacheEntry := { e with failed := true }

/-- The bytes a call of `cache_append_data` is to append: none for NULL. -/
def payload (data : Option Block) : List UInt8 := (data.map Block.bytes).getD []

/-- An entry after an append: the data grew, everything else is as before. -/
structure Appended (e next : CacheEntry) (bytes : List UInt8) : Prop where
  stored : next.stored = e.stored ++ bytes
  key : next.key = e.key
  complete : next.complete = e.complete
  failed : next.failed = e.failed
  refcnt : next.refcnt = e.refcnt
  next : next.next = e.next

/-- An append returns 0 and adds exactly its block, to an entry that had not
failed unless the block is empty, or it returns -1 and leaves the entry failed and
otherwise as it was. -/
theorem cacheAppendData_spec (e : CacheEntry) (data : Option Block) (answer : ReallocAnswer) :
    (∃ next, cacheAppendData e data answer = (0, next) ∧ Appended e next (payload data) ∧
      (payload data ≠ [] → e.failed = false)) ∨
    (cacheAppendData e data answer = (-1, { e with failed := true }) ∧ payload data ≠ []) := by
  cases data with
  | none => exact .inl ⟨e, rfl, ⟨by simp [payload], rfl, rfl, rfl, rfl, rfl⟩, by simp [payload]⟩
  | some block =>
      by_cases empty : block.bytes = []
      · exact .inl ⟨e, by simp [cacheAppendData, empty],
          ⟨by simp [payload, empty], rfl, rfl, rfl, rfl, rfl⟩, by simp [payload, empty]⟩
      · have some : payload (some block) ≠ [] := empty
        have positive : ¬ block.bytes.length = 0 := by simpa using empty
        cases failed : e.failed with
        | true =>
            have same : e = { e with failed := true } := by ext <;> simp [failed]
            refine .inr ⟨?_, some⟩
            rw [← same]
            simp [cacheAppendData, positive, failed]
        | false =>
            simp only [cacheAppendData, positive, failed, ↓reduceIte, Bool.false_eq_true]
            split
            · exact .inr ⟨rfl, some⟩
            · rename_i grown reserved
              obtain ⟨_, _, stored, key, complete, sane, refcnt, link⟩ := e.reserve_spec reserved
              refine .inl ⟨_, rfl, ⟨?_, key, complete, ?_, refcnt, link⟩, fun _ => trivial⟩
              · rw [CacheEntry.stored_fill, stored]
                rfl
              · exact sane

/-- An append changes neither the key, the complete mark, the count nor the link. -/
theorem cacheAppendData_frame (e : CacheEntry) (data : Option Block) (answer : ReallocAnswer) :
    (cacheAppendData e data answer).2.key = e.key ∧
      (cacheAppendData e data answer).2.complete = e.complete ∧
      (cacheAppendData e data answer).2.refcnt = e.refcnt ∧
      (cacheAppendData e data answer).2.next = e.next := by
  rcases cacheAppendData_spec e data answer with ⟨next, ran, appended, _⟩ | ⟨ran, _⟩
  · rw [ran]
    exact ⟨appended.key, appended.complete, appended.refcnt, appended.next⟩
  · rw [ran]
    exact ⟨rfl, rfl, rfl, rfl⟩

end Cache
end OperationSystems
