import OperationSystems.Cache.Table
import OperationSystems.Foundation.Disposal

/-!
# The loops of `cache_table_destroy`

They free the entries of every bucket, reading the link of an entry before it is freed.
Where the table is well linked they read no entry that is freed, and free every linked
entry once.
-/

namespace OperationSystems.Cache

open LinkedCells

namespace CacheTable

variable {t : CacheTable}

/-- The two loops of `cache_table_destroy` for the listed buckets, with the entries that are
freed. -/
def destroyBuckets : List Nat → CacheTable → Option (CacheTable × List Ptr)
  | [], t => some (t, [])
  | index :: rest, t =>
      (dispose Cell.next cells cacheEntryDestroy t.fresh t (t.buckets index)).bind
        fun (t', freed) => (destroyBuckets rest t').map fun (t'', more) => (t'', freed ++ more)

/-- The two loops of `cache_table_destroy`. -/
def destroyLoops (t : CacheTable) : Option (CacheTable × List Ptr) :=
  destroyBuckets (List.range t.nbuckets) t

/-- Freeing entries changes their memory only. -/
theorem foldl_cacheEntryDestroy (t : CacheTable) (freed : List Ptr) :
    freed.foldl CacheTable.cacheEntryDestroy t =
      { t with heap := fun p => if p ∈ freed then none else t.heap p } := by
  induction freed generalizing t with
  | nil => simp
  | cons p rest ih =>
      rw [List.foldl_cons, ih]
      unfold CacheTable.cacheEntryDestroy
      congr 1
      funext q
      by_cases later : q ∈ rest
      · simp [later]
      · by_cases same : q = p
        · simp [same]
        · simp [later, same]

/-- Freeing an entry leaves the links of the other ones. -/
theorem cells_cacheEntryDestroy (t : CacheTable) (p q : Ptr) (other : q ≠ p) :
    (t.cacheEntryDestroy p).cells (.next q) = t.cells (.next q) := by
  simp [cells, CacheTable.cacheEntryDestroy, other]

/-- The entries of the listed buckets are freed, where they are as they were. -/
theorem WellLinked.destroyBuckets (linked : t.WellLinked) {indices : List Nat}
    (below : ∀ index ∈ indices, index < t.nbuckets) (distinct : indices.Nodup)
    {now : CacheTable} (fresh : now.fresh = t.fresh) (buckets : now.buckets = t.buckets)
    (same : ∀ index ∈ indices, ∀ p ∈ t.chain index, now.heap p = t.heap p) :
    CacheTable.destroyBuckets indices now =
      some ((indices.flatMap t.chain).foldl CacheTable.cacheEntryDestroy now,
        indices.flatMap t.chain) := by
  induction indices generalizing now with
  | nil => rfl
  | cons index rest ih =>
      obtain ⟨out, others⟩ := List.nodup_cons.mp distinct
      have inside := below index List.mem_cons_self
      have first : t.cells (.bucket index) = some (now.buckets index) := by
        rw [cells, if_pos inside, buckets]
      have reads : ∀ p ∈ t.chain index, now.cells (.next p) = t.cells (.next p) := by
        intro p member
        simp only [cells, same index List.mem_cons_self p member]
      have short : (t.chain index).length ≤ now.fresh := by
        rw [fresh]
        exact Nat.lt_succ_iff.mp (linked.length_chain inside)
      have freed := (linked.path index inside).dispose cells_cacheEntryDestroy first reads short
      have later : ∀ j ∈ rest, ∀ p ∈ t.chain j,
          ((t.chain index).foldl CacheTable.cacheEntryDestroy now).heap p = t.heap p := by
        intro j member p listed
        have apart : p ∉ t.chain index := by
          intro again
          have equal := linked.chain_disjoint inside (below j (List.mem_cons_of_mem _ member))
            again listed
          exact out (equal ▸ member)
        rw [foldl_cacheEntryDestroy]
        simp only [apart, if_false]
        exact same j (List.mem_cons_of_mem _ member) p listed
      have fresh' : ((t.chain index).foldl CacheTable.cacheEntryDestroy now).fresh = t.fresh := by
        rw [foldl_cacheEntryDestroy]
        exact fresh
      have buckets' :
          ((t.chain index).foldl CacheTable.cacheEntryDestroy now).buckets = t.buckets := by
        rw [foldl_cacheEntryDestroy]
        exact buckets
      have goes := ih (fun j member => below j (List.mem_cons_of_mem _ member)) others
        fresh' buckets' later
      unfold CacheTable.destroyBuckets
      rw [freed, Option.bind_some]
      dsimp only
      rw [goes, Option.map_some, List.flatMap_cons, List.foldl_append]

/-- **`cache_table_destroy` frees every linked entry once**, and no other one. -/
theorem WellLinked.destroyLoops (linked : t.WellLinked) :
    ∃ freed, t.destroyLoops = some (freed.foldl CacheTable.cacheEntryDestroy t, freed) ∧
      t.cacheTableDestroy = { freed.foldl CacheTable.cacheEntryDestroy t with
        buckets := fun _ => none } ∧
      freed.Nodup ∧ ∀ p, p ∈ freed ↔ t.Linked p := by
  refine ⟨(List.range t.nbuckets).flatMap t.chain, ?_, rfl, ?_, fun p => ?_⟩
  · exact linked.destroyBuckets (fun index member => List.mem_range.mp member) List.nodup_range
      rfl rfl fun _ _ _ _ => rfl
  · refine List.nodup_flatMap.mpr ⟨fun index member => ?_, ?_⟩
    · exact (linked.path index (List.mem_range.mp member)).nodup
    · refine List.nodup_range.pairwise_of_forall_ne ?_
      intro i one j two apart p left right
      exact apart (linked.chain_disjoint (List.mem_range.mp one) (List.mem_range.mp two) left right)
  · simp [Linked, List.mem_flatMap]

end CacheTable

end OperationSystems.Cache
