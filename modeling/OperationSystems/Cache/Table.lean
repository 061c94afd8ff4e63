import OperationSystems.Cache.Entry
import OperationSystems.Foundation.LinkedCells

/-!
# The chained hash table

`cache_table_t` as pointers: the bucket heads, the entries in memory and their
`next` fields. The loops of `cache/cache.c` walk these cells as
`LinkedCells.find` and `LinkedCells.locate` do. A table is `WellLinked` when
every bucket is a list that ends in NULL, its entries hash to it, and no key is
linked twice; the primitive updates (head insertion, unlinking, a change of one
entry, `free`) are described by what they do to the chains.
-/

namespace OperationSystems.Cache

open CStrings LinkedCells

/-- The places a `cache_entry_t *` is stored in, and so the values of
`cache_entry_t **pp`. -/
inductive Cell
  | bucket (index : Nat)
  | next (entry : Ptr)
  deriving DecidableEq

theorem Cell.next_injective : Function.Injective Cell.next := fun _ _ same => Cell.next.inj same

/-- `cache_table_t` without its lock, with the memory of its entries. `fresh` is
the next address an allocation returns. -/
structure CacheTable where
  buckets : Nat → Option Ptr
  nbuckets : Nat
  heap : Ptr → Option CacheEntry
  fresh : Ptr

/-- `CACHE_DEFAULT_BUCKETS`. -/
def cacheDefaultBuckets : Nat := 1024

/-- The table `cache_table_init` fills in. -/
def emptyTable : CacheTable where
  buckets := fun _ => none
  nbuckets := cacheDefaultBuckets
  heap := fun _ => none
  fresh := 0

/-- An entry apart from its `next` field, which belongs to the chain. -/
def CacheEntry.detach (e : CacheEntry) : CacheEntry := { e with next := none }

namespace CacheTable

variable (t : CacheTable)

/-- What a cell holds; `none` outside the bucket array and in freed entries. -/
def cells : Cell → Option (Option Ptr)
  | .bucket index => if index < t.nbuckets then some (t.buckets index) else none
  | .next p => (t.heap p).map CacheEntry.next

/-- The bucket of a key. -/
def index (key : CString) : Nat := (hashKey key).toNat % t.nbuckets

/-- The entries linked in a bucket, in order. -/
def chain (index : Nat) : List Ptr :=
  collect Cell.next t.cells (t.fresh + 1) (.bucket index)

/-- The entry is reachable from a bucket. -/
def Linked (p : Ptr) : Prop := ∃ index < t.nbuckets, p ∈ t.chain index

/-- The entry has been passed to `cache_entry_destroy`. -/
def Destroyed (p : Ptr) : Prop := p < t.fresh ∧ t.heap p = none

/-- The search loop of `cache_start_or_join`. -/
def scan (index : Nat) (key : CString) : Option (Option Ptr) :=
  find Cell.next t.cells (fun p => (t.heap p).map fun e => decide (e.key = key)) (t.fresh + 1)
    (.bucket index)

/-- Store through a `cache_entry_t **`. -/
def write : Cell → Option Ptr → CacheTable
  | .bucket index, value => { t with buckets := Function.update t.buckets index value }
  | .next p, value =>
      { t with heap := Function.update t.heap p ((t.heap p).map fun e => { e with next := value }) }

/-- The unlink loop, as in `cache_start_or_join` and `cache_release`: walk to
the cell that names `p` and store `p->next` there. -/
def unlink (index : Nat) (p : Ptr) : Option CacheTable :=
  match locate Cell.next t.cells p (t.fresh + 1) (.bucket index) with
  | none => none
  | some none => some t
  | some (some pp) => (t.heap p).map fun e => t.write pp e.next

/-- Allocate an entry and put it at the head of a bucket. -/
def push (index : Nat) (e : CacheEntry) : CacheTable :=
  { t with
    buckets := Function.update t.buckets index (some t.fresh)
    heap := Function.update t.heap t.fresh (some { e with next := t.buckets index })
    fresh := t.fresh + 1 }

/-- Change one entry in place. -/
def modify (p : Ptr) (change : CacheEntry → CacheEntry) : CacheTable :=
  { t with heap := Function.update t.heap p ((t.heap p).map change) }

/-- `cache_entry_destroy`. -/
def cacheEntryDestroy (p : Ptr) : CacheTable :=
  { t with heap := Function.update t.heap p none }

/-- `cache_table_destroy`. -/
def cacheTableDestroy : CacheTable :=
  { ((List.range t.nbuckets).flatMap t.chain).foldl cacheEntryDestroy t with
    buckets := fun _ => none }

/-- The table is a hash table: every bucket is a list of entries that hash to
it, and no two linked entries have the same key. -/
structure WellLinked : Prop where
  nonempty : 0 < t.nbuckets
  bounded : ∀ p, t.fresh ≤ p → t.heap p = none
  path : ∀ index < t.nbuckets, Path Cell.next t.cells (.bucket index) (t.chain index)
  placed : ∀ index < t.nbuckets, ∀ p ∈ t.chain index, ∀ e, t.heap p = some e →
    t.index e.key = index
  distinct : ∀ p q, t.Linked p → t.Linked q → ∀ e f, t.heap p = some e → t.heap q = some f →
    e.key = f.key → p = q

variable {t}

theorem index_lt (positive : 0 < t.nbuckets) (key : CString) : t.index key < t.nbuckets :=
  Nat.mod_lt _ positive

theorem cells_next {p : Ptr} {value : Option Ptr} (held : t.cells (.next p) = some value) :
    ∃ e, t.heap p = some e ∧ e.next = value := Option.map_eq_some_iff.mp held

/-- A path of a table whose entries are below `fresh` is the chain. -/
theorem chain_eq {index : Nat} {l : List Ptr} (bounded : ∀ p, t.fresh ≤ p → t.heap p = none)
    (path : Path Cell.next t.cells (.bucket index) l) : t.chain index = l := by
  refine path.collect_eq (Nat.lt_succ_of_le (path.length_le fun p member => ?_))
  by_contra outside
  obtain ⟨value, held⟩ := path.allocated member
  obtain ⟨e, found, _⟩ := cells_next held
  rw [bounded p (not_lt.mp outside)] at found
  cases found

namespace WellLinked

variable (linked : t.WellLinked)

include linked

/-- Every linked entry is in memory. -/
theorem allocated {p : Ptr} (member : t.Linked p) : ∃ e, t.heap p = some e := by
  obtain ⟨index, below, inside⟩ := member
  obtain ⟨value, held⟩ := (linked.path index below).allocated inside
  obtain ⟨e, found, _⟩ := cells_next held
  exact ⟨e, found⟩

/-- Every entry in memory has an address that was handed out. -/
theorem lt_fresh {p : Ptr} {e : CacheEntry} (found : t.heap p = some e) : p < t.fresh := by
  by_contra outside
  rw [linked.bounded p (not_lt.mp outside)] at found
  cases found

/-- A chain has no more entries than addresses were handed out, so a walk over it ends in
time. -/
theorem length_chain {index : Nat} (below : index < t.nbuckets) :
    (t.chain index).length < t.fresh + 1 := by
  refine Nat.lt_succ_of_le ((linked.path index below).length_le fun p member => ?_)
  obtain ⟨e, found⟩ := linked.allocated ⟨index, below, member⟩
  exact linked.lt_fresh found

/-- An entry is linked in the bucket of its key. -/
theorem mem_chain {p : Ptr} {e : CacheEntry} (member : t.Linked p) (found : t.heap p = some e) :
    p ∈ t.chain (t.index e.key) := by
  obtain ⟨index, below, inside⟩ := member
  rw [linked.placed index below p inside e found]
  exact inside

/-- Chains of different buckets have no entry in common. -/
theorem chain_disjoint {i j : Nat} (one : i < t.nbuckets) (two : j < t.nbuckets) {p : Ptr}
    (left : p ∈ t.chain i) (right : p ∈ t.chain j) : i = j := by
  obtain ⟨e, found⟩ := linked.allocated ⟨i, one, left⟩
  rw [← linked.placed i one p left e found, ← linked.placed j two p right e found]

/-- The search loop ends, and finds the linked entry of the key if there is one. -/
theorem scan_eq (key : CString) :
    (∃ p e, t.scan (t.index key) key = some (some p) ∧ t.Linked p ∧ t.heap p = some e ∧
      e.key = key) ∨
    (t.scan (t.index key) key = some none ∧
      ∀ p, t.Linked p → ∀ e, t.heap p = some e → e.key ≠ key) := by
  have below := index_lt linked.nonempty key
  have searched : t.scan (t.index key) key = some ((t.chain (t.index key)).find? fun p =>
      ((t.heap p).map fun e => decide (e.key = key)).getD false) := by
    refine (linked.path _ below).find_eq (fun p member => ?_) (linked.length_chain below)
    obtain ⟨e, found⟩ := linked.allocated ⟨_, below, member⟩
    simp [found]
  rw [searched]
  cases result : (t.chain (t.index key)).find? fun p =>
      ((t.heap p).map fun e => decide (e.key = key)).getD false with
  | some p =>
      have member := List.mem_of_find?_eq_some result
      obtain ⟨e, found⟩ := linked.allocated ⟨_, below, member⟩
      have passed := List.find?_some result
      exact .inl ⟨p, e, rfl, ⟨_, below, member⟩, found, by simpa [found] using passed⟩
  | none =>
      refine .inr ⟨rfl, fun p member e found same => ?_⟩
      have inside := linked.mem_chain member found
      have failed := List.find?_eq_none.mp result p (same ▸ inside)
      simp [found, same] at failed

end WellLinked

/-! ## The primitive updates -/

/-- Lists that the cells spell out, whose entries hash to their bucket under
distinct keys, are the chains of a well-linked table. -/
theorem wellLinked_of_paths (l : Nat → List Ptr) (positive : 0 < t.nbuckets)
    (bounded : ∀ p, t.fresh ≤ p → t.heap p = none)
    (paths : ∀ index < t.nbuckets, Path Cell.next t.cells (.bucket index) (l index))
    (placed : ∀ index < t.nbuckets, ∀ p ∈ l index, ∀ e, t.heap p = some e →
      t.index e.key = index)
    (distinct : ∀ index < t.nbuckets, ∀ p ∈ l index, ∀ q ∈ l index, ∀ e f, t.heap p = some e →
      t.heap q = some f → e.key = f.key → p = q) :
    t.WellLinked ∧ ∀ index < t.nbuckets, t.chain index = l index := by
  have chains : ∀ index < t.nbuckets, t.chain index = l index := fun index below =>
    chain_eq bounded (paths index below)
  refine ⟨⟨positive, bounded, fun index below => ?_, fun index below => ?_, ?_⟩, chains⟩
  · rw [chains index below]
    exact paths index below
  · rw [chains index below]
    exact placed index below
  · rintro p q ⟨i, one, left⟩ ⟨j, two, right⟩ e f found also same
    rw [chains i one] at left
    rw [chains j two] at right
    have equal : i = j := by
      rw [← placed i one p left e found, ← placed j two q right f also, same]
    subst equal
    exact distinct i one p left q right e f found also same

/-- The table `cache_table_init` fills in has no entries. -/
theorem emptyTable_wellLinked :
    emptyTable.WellLinked ∧ ∀ index < emptyTable.nbuckets, emptyTable.chain index = [] := by
  refine wellLinked_of_paths (fun _ => []) (by decide) (fun _ _ => rfl) ?_ ?_ ?_
  · intro index below
    exact if_pos below
  · intro index _ p member
    cases member
  · intro index _ p member
    cases member

/-- Changing an entry but for its link changes no cell. -/
theorem modify_cells {p : Ptr} {change : CacheEntry → CacheEntry}
    (link : ∀ e, t.heap p = some e → (change e).next = e.next) :
    (t.modify p change).cells = t.cells := by
  funext cell
  cases cell with
  | bucket index => rfl
  | next q =>
      by_cases same : q = p
      · subst same
        cases found : t.heap q with
        | none => simp [cells, modify, found]
        | some e => simp [cells, modify, found, link e found]
      · simp [cells, modify, same]

/-- So it changes no chain. -/
theorem modify_chain {p : Ptr} {change : CacheEntry → CacheEntry}
    (link : ∀ e, t.heap p = some e → (change e).next = e.next) :
    (t.modify p change).chain = t.chain := by
  funext index
  rw [chain, modify_cells link]
  rfl

/-- Looking an entry of a modified table up. -/
theorem modify_heap {p q : Ptr} {change : CacheEntry → CacheEntry} {e : CacheEntry}
    (found : (t.modify p change).heap q = some e) :
    ∃ old, t.heap q = some old ∧ e = if q = p then change old else old := by
  by_cases same : q = p
  · subst same
    obtain ⟨old, before, rfl⟩ := Option.map_eq_some_iff.mp (by simpa [modify] using found)
    exact ⟨old, before, by simp⟩
  · exact ⟨e, by simpa [modify, same] using found, by simp [same]⟩

/-- A change of one entry that leaves its key and its link alone keeps the
chains. -/
theorem WellLinked.modify (linked : t.WellLinked) {p : Ptr} {change : CacheEntry → CacheEntry}
    (link : ∀ e, t.heap p = some e → (change e).next = e.next)
    (key : ∀ e, t.heap p = some e → (change e).key = e.key) : (t.modify p change).WellLinked := by
  have keys : ∀ q e, (t.modify p change).heap q = some e →
      ∃ old, t.heap q = some old ∧ e.key = old.key := by
    intro q e found
    obtain ⟨old, before, rfl⟩ := modify_heap found
    by_cases same : q = p
    · subst same
      exact ⟨old, before, by simp [key old before]⟩
    · exact ⟨old, before, by simp [same]⟩
  refine (wellLinked_of_paths (t := t.modify p change) t.chain linked.nonempty ?_ ?_ ?_ ?_).1
  · intro q outside
    cases found : (t.modify p change).heap q with
    | none => rfl
    | some e =>
        obtain ⟨old, before, _⟩ := keys q e found
        rw [linked.bounded q outside] at before
        cases before
  · rw [modify_cells link]
    exact linked.path
  · intro index below q member e found
    obtain ⟨old, before, same⟩ := keys q e found
    rw [same]
    exact linked.placed index below q member old before
  · intro index below q left r right e f found also same
    obtain ⟨old, before, one⟩ := keys q e found
    obtain ⟨other, prior, two⟩ := keys r f also
    exact linked.distinct q r ⟨index, below, left⟩ ⟨index, below, right⟩ old other before prior
      (one.symm.trans (same.trans two))

/-- Head insertion of an entry whose key is not linked. -/
theorem WellLinked.push (linked : t.WellLinked) {e : CacheEntry}
    (absent : ∀ p, t.Linked p → ∀ f, t.heap p = some f → f.key ≠ e.key) :
    (t.push (t.index e.key) e).WellLinked ∧
      ∀ index < t.nbuckets, (t.push (t.index e.key) e).chain index =
        if index = t.index e.key then t.fresh :: t.chain index else t.chain index := by
  have below := index_lt linked.nonempty e.key
  have older : ∀ index < t.nbuckets, ∀ p ∈ t.chain index, p ≠ t.fresh := by
    rintro index inside p member rfl
    obtain ⟨f, found⟩ := linked.allocated ⟨index, inside, member⟩
    exact absurd (linked.lt_fresh found) (lt_irrefl _)
  have inner : ∀ p, p ≠ t.fresh →
      (t.push (t.index e.key) e).cells (.next p) = t.cells (.next p) := by
    intro p other
    simp [cells, CacheTable.push, other]
  have heap : ∀ p, p ≠ t.fresh → (t.push (t.index e.key) e).heap p = t.heap p := by
    intro p other
    simp [CacheTable.push, other]
  have here : (t.push (t.index e.key) e).heap t.fresh =
      some { e with next := t.buckets (t.index e.key) } := by simp [CacheTable.push]
  refine wellLinked_of_paths (t := t.push (t.index e.key) e) _ linked.nonempty ?_ ?_ ?_ ?_
  · intro p outside
    have other : p ≠ t.fresh := by
      rintro rfl
      exact absurd outside (by simp [CacheTable.push])
    rw [heap p other]
    exact linked.bounded p (le_trans (Nat.le_succ _) outside)
  · intro index inside
    have head : t.cells (.bucket index) = some (t.buckets index) := if_pos inside
    by_cases same : index = t.index e.key
    · subst same
      rw [if_pos rfl]
      refine (linked.path _ below).push ?_ ?_ fun p member => inner p (older _ below p member)
      · simp [cells, CacheTable.push, below]
      · rw [head]
        simp [cells, here]
    · rw [if_neg same]
      refine (linked.path index inside).transfer ?_ fun p member =>
        inner p (older _ inside p member)
      simp [cells, CacheTable.push, same]
  · intro index inside p member f found
    by_cases newest : p = t.fresh
    · subst newest
      obtain rfl := Option.some.inj (here.symm.trans found)
      by_contra other
      have elsewhere : index ≠ t.index e.key := Ne.symm other
      rw [if_neg elsewhere] at member
      exact older index inside _ member rfl
    · rw [heap p newest] at found
      refine linked.placed index inside p ?_ f found
      split at member
      · exact (List.mem_cons.mp member).resolve_left newest
      · exact member
  · intro index inside p left q right f g found also same
    have earlier : ∀ r, r ≠ t.fresh → (r ∈ if index = t.index e.key then
        t.fresh :: t.chain index else t.chain index) → t.Linked r := by
      intro r old member
      refine ⟨index, inside, ?_⟩
      split at member
      · exact (List.mem_cons.mp member).resolve_left old
      · exact member
    by_cases one : p = t.fresh
    · by_cases two : q = t.fresh
      · exact one.trans two.symm
      · subst one
        obtain rfl := Option.some.inj (here.symm.trans found)
        rw [heap q two] at also
        exact absurd same.symm (absent q (earlier q two right) g also)
    · by_cases two : q = t.fresh
      · subst two
        obtain rfl := Option.some.inj (here.symm.trans also)
        rw [heap p one] at found
        exact absurd same (absent p (earlier p one left) f found)
      · rw [heap p one] at found
        rw [heap q two] at also
        exact linked.distinct p q (earlier p one left) (earlier q two right) f g found also same

/-- A write to a cell that is there changes this cell. -/
theorem write_cells {cell : Cell} {value : Option Ptr} (held : t.cells cell ≠ none) :
    (t.write cell value).cells = Function.update t.cells cell (some value) := by
  funext other
  cases cell with
  | bucket index =>
      have inside : index < t.nbuckets := by
        by_contra outside
        exact held (if_neg outside)
      cases other with
      | bucket j =>
          by_cases same : j = index
          · subst same
            simp [cells, write, inside]
          · simp [cells, write, same]
      | next q => simp [cells, write]
  | next p =>
      cases other with
      | bucket j => rfl
      | next q =>
          by_cases same : q = p
          · subst same
            cases found : t.heap q with
            | none => exact absurd (by simp [cells, found]) held
            | some e => simp [cells, write, found]
          · simp [cells, write, same]

/-- A store through a link changes nothing but links. -/
theorem write_detach (cell : Cell) (value : Option Ptr) (q : Ptr) :
    ((t.write cell value).heap q).map CacheEntry.detach = (t.heap q).map CacheEntry.detach := by
  cases cell with
  | bucket index => rfl
  | next p =>
      by_cases same : q = p
      · subst same
        cases found : t.heap q <;> simp [write, found, CacheEntry.detach]
      · simp [write, same]

/-- The unlink loop changes nothing but links. -/
theorem unlink_detach {index : Nat} {p : Ptr} {t' : CacheTable}
    (unlinked : t.unlink index p = some t') : t'.fresh = t.fresh ∧
      ∀ q, (t'.heap q).map CacheEntry.detach = (t.heap q).map CacheEntry.detach := by
  unfold unlink at unlinked
  split at unlinked
  · cases unlinked
  · obtain rfl := Option.some.inj unlinked
    exact ⟨rfl, fun _ => rfl⟩
  · rename_i pp _
    obtain ⟨e, found, rfl⟩ := Option.map_eq_some_iff.mp unlinked
    exact ⟨by cases pp <;> rfl, write_detach pp e.next⟩

/-- An entry known up to its link is allocated, with the same key. -/
theorem exists_of_detach {t' : CacheTable} {q : Ptr} {e : CacheEntry}
    (same : (t'.heap q).map CacheEntry.detach = (t.heap q).map CacheEntry.detach)
    (found : t'.heap q = some e) : ∃ old, t.heap q = some old ∧ e.detach = old.detach := by
  rw [found] at same
  obtain ⟨old, before, equal⟩ := Option.map_eq_some_iff.mp same.symm
  exact ⟨old, before, equal.symm⟩

theorem key_of_detach {e f : CacheEntry} (same : e.detach = f.detach) : e.key = f.key :=
  (congrArg CacheEntry.key same : e.detach.key = f.detach.key)

/-- The unlink loop takes exactly the given entry out of its chain. -/
theorem WellLinked.unlink (linked : t.WellLinked) {index : Nat} (below : index < t.nbuckets)
    {p : Ptr} (member : p ∈ t.chain index) :
    ∃ t', t.unlink index p = some t' ∧ t'.WellLinked ∧ t'.nbuckets = t.nbuckets ∧
      t'.fresh = t.fresh ∧
      (∀ q, (t'.heap q).map CacheEntry.detach = (t.heap q).map CacheEntry.detach) ∧
      ∀ j < t.nbuckets, t'.chain j = if j = index then (t.chain j).erase p else t.chain j := by
  obtain ⟨e, found⟩ := linked.allocated ⟨index, below, member⟩
  obtain ⟨pp, located, names, place, shorter⟩ := (linked.path index below).locate_spec
    Cell.next_injective (fun q _ => by simp) member (linked.length_chain below)
  have held : t.cells pp ≠ none := by simp [names]
  have link : t.cells (.next p) = some e.next := by simp [cells, found]
  rw [link, ← write_cells held] at shorter
  have same := write_detach (t := t) pp e.next
  have size : (t.write pp e.next).nbuckets = t.nbuckets := by cases pp <;> rfl
  have bound : (t.write pp e.next).fresh = t.fresh := by cases pp <;> rfl
  have index_eq : ∀ key, (t.write pp e.next).index key = t.index key := by
    intro key
    simp [CacheTable.index, size]
  have subset : ∀ j, ∀ q ∈ (if j = index then (t.chain j).erase p else t.chain j),
      q ∈ t.chain j := by
    intro j q inside
    split at inside
    · exact List.mem_of_mem_erase inside
    · exact inside
  suffices rebuilt : (t.write pp e.next).WellLinked ∧ ∀ j < (t.write pp e.next).nbuckets,
      (t.write pp e.next).chain j = if j = index then (t.chain j).erase p else t.chain j by
    obtain ⟨well, chains⟩ := rebuilt
    exact ⟨t.write pp e.next, by simp [CacheTable.unlink, located, found], well, size, bound,
      same, fun j inside => chains j (by rw [size]; exact inside)⟩
  apply wellLinked_of_paths _ (by rw [size]; exact linked.nonempty)
  · intro q outside
    rw [bound] at outside
    simpa [linked.bounded q outside] using same q
  · intro j inside
    rw [size] at inside
    by_cases equal : j = index
    · subst equal
      simpa using shorter
    · -- the store was not into this bucket's chain
      have apart : ∀ cell, (cell = .bucket j ∨ ∃ q ∈ t.chain j, cell = Cell.next q) →
          cell ≠ pp := by
        rintro cell here rfl
        rcases place with rfl | ⟨r, within, rfl⟩ <;> rcases here with same | ⟨q, other, same⟩
        · exact equal (Cell.bucket.inj same).symm
        · cases same
        · cases same
        · obtain rfl := Cell.next.inj same
          exact equal (linked.chain_disjoint inside below other within)
      simp only [equal, ↓reduceIte]
      rw [write_cells held]
      exact (linked.path j inside).transfer (Function.update_of_ne (apart _ (.inl rfl)) _ _)
        fun q other => Function.update_of_ne (apart _ (.inr ⟨q, other, rfl⟩)) _ _
  · intro j inside q within f there
    rw [size] at inside
    obtain ⟨old, before, equal⟩ := exists_of_detach (same q) there
    rw [index_eq, key_of_detach equal]
    exact linked.placed j inside q (subset j q within) old before
  · intro j inside q left r right f g there also keys
    rw [size] at inside
    obtain ⟨old, before, one⟩ := exists_of_detach (same q) there
    obtain ⟨other, prior, two⟩ := exists_of_detach (same r) also
    refine linked.distinct q r ⟨j, inside, subset j q left⟩ ⟨j, inside, subset j r right⟩ old other
      before prior ?_
    rw [← key_of_detach one, ← key_of_detach two, keys]

/-- Freeing an entry that is in no chain leaves the chains alone. -/
theorem WellLinked.cacheEntryDestroy (linked : t.WellLinked) {p : Ptr} (out : ¬ t.Linked p) :
    (t.cacheEntryDestroy p).WellLinked ∧
      ∀ index < t.nbuckets, (t.cacheEntryDestroy p).chain index = t.chain index := by
  have apart : ∀ index < t.nbuckets, ∀ q ∈ t.chain index, q ≠ p := by
    rintro index below q member rfl
    exact out ⟨index, below, member⟩
  have old : ∀ q e, (t.cacheEntryDestroy p).heap q = some e → t.heap q = some e := by
    intro q e found
    by_cases same : q = p
    · subst same
      simp [CacheTable.cacheEntryDestroy] at found
    · simpa [CacheTable.cacheEntryDestroy, same] using found
  refine wellLinked_of_paths (t := t.cacheEntryDestroy p) t.chain linked.nonempty ?_ ?_ ?_ ?_
  · intro q outside
    cases found : (t.cacheEntryDestroy p).heap q with
    | none => rfl
    | some e => exact absurd (old q e found) (by simp [linked.bounded q outside])
  · intro index below
    refine (linked.path index below).transfer rfl fun q member => ?_
    simp [cells, CacheTable.cacheEntryDestroy, apart index below q member]
  · exact fun index below q member e found =>
      linked.placed index below q member e (old q e found)
  · exact fun index below q left r right e f found also same => linked.distinct q r
      ⟨index, below, left⟩ ⟨index, below, right⟩ e f (old q e found) (old r f also) same

end CacheTable
end OperationSystems.Cache
