import OperationSystems.Cache.Table

/-!
# Looking up, joining and releasing entries

`cache_start_or_join` and `cache_release` as functions on the table, cut at the
places where other threads may run in between, so that the concurrent model can
take the same pieces as its steps. Run without interruption they keep a table
well linked and touch nothing but the entry they are about (`StartOutcome`,
`ReleaseOutcome`).

`e->refcnt` is an `int`. Callers that hold no more references than an `int` counts need not
care; for any sequence of calls the two functions stand here once more, with the overflow of
the count as a fault.
-/

namespace OperationSystems.Cache

open CStrings

namespace CacheTable

variable (t : CacheTable)

/-- Lines 168 to 183 of `cache_start_or_join`, also run after a failed entry was
dropped: create an entry, put it at the head of its bucket, and be its writer. -/
def startNew (key : CString) (answer : CreateAnswer) : CacheTable × Option (Ptr × Bool) :=
  match cacheEntryCreate answer key with
  | none => (t, none)
  | some e => (t.push (t.index key) e, some (t.fresh, true))

/-- Lines 125 to 164, after `e->failed` was read: drop and recreate a failed
entry that nobody holds, and join any other. -/
def decideFound (key : CString) (p : Ptr) (isFailed : Bool) (answer : CreateAnswer) :
    Option (CacheTable × Option (Ptr × Bool)) :=
  match t.heap p with
  | none => none
  | some e =>
      if isFailed = true ∧ e.refcnt = 0 then
        (t.unlink (t.index key) p).map fun t' => (t'.cacheEntryDestroy p).startNew key answer
      else some (t.modify p fun e => e.withRefcnt (e.refcnt + 1), some (p, false))

/-- `cache_start_or_join`, run without interruption: the table after it and what
it returns, an entry with `*am_writer`, or NULL. The outer `none` is a fault. -/
def cacheStartOrJoin (key : CString) (answer : CreateAnswer) :
    Option (CacheTable × Option (Ptr × Bool)) :=
  match t.scan (t.index key) key with
  | none => none
  | some none => some (t.startNew key answer)
  | some (some p) =>
      match t.heap p with
      | none => none
      | some e => t.decideFound key p e.failed answer

/-- `e->refcnt--`. -/
def decrement (p : Ptr) : CacheTable := t.modify p fun e => e.withRefcnt (e.refcnt - 1)

/-- `cache_release`, run without interruption. -/
def cacheRelease (p : Ptr) : Option CacheTable :=
  match t.heap p with
  | none => none
  | some e =>
      if 0 < e.refcnt - 1 then some (t.decrement p)
      else if e.complete && !e.failed then some (t.decrement p)
      else ((t.decrement p).unlink (t.index e.key) p).map fun t' => t'.cacheEntryDestroy p

end CacheTable

/-! ## The count as an `int` -/

/-- `INT_MIN`. -/
def intMin : Int := -2147483648

/-- `INT_MAX`. -/
def intMax : Int := 2147483647

/-- Addition of `int` values; the overflow is undefined. -/
def intAdd (a b : Int) : Option Int :=
  if intMin ≤ a + b ∧ a + b ≤ intMax then some (a + b) else none

theorem intAdd_eq_some {a b : Int} (lower : intMin ≤ a + b) (upper : a + b ≤ intMax) :
    intAdd a b = some (a + b) :=
  if_pos ⟨lower, upper⟩

/-- The entry counts its references with an `int`. -/
def CacheEntry.CountsInt (e : CacheEntry) : Prop := intMin ≤ e.refcnt ∧ e.refcnt ≤ intMax

/-- A count can be increased unless it is the largest `int`. -/
theorem CacheEntry.CountsInt.increment {e : CacheEntry} (counts : e.CountsInt)
    (below : e.refcnt ≠ intMax) : intAdd e.refcnt 1 = some (e.refcnt + 1) := by
  obtain ⟨lower, upper⟩ := counts
  exact intAdd_eq_some (by omega) (by omega)

/-- A count can be decreased unless it is the least `int`. -/
theorem CacheEntry.CountsInt.decrement {e : CacheEntry} (counts : e.CountsInt)
    (above : e.refcnt ≠ intMin) : intAdd e.refcnt (-1) = some (e.refcnt - 1) := by
  obtain ⟨lower, upper⟩ := counts
  exact intAdd_eq_some (by omega) (by omega)

namespace CacheTable

variable (t : CacheTable)

/-- `cache_start_or_join`, with the overflow of `e->refcnt++` as a fault. -/
def cacheStartOrJoinInt (key : CString) (answer : CreateAnswer) :
    Option (CacheTable × Option (Ptr × Bool)) :=
  match t.scan (t.index key) key with
  | none => none
  | some none => some (t.startNew key answer)
  | some (some p) =>
      match t.heap p with
      | none => none
      | some e =>
          if e.failed = true ∧ e.refcnt = 0 then
            (t.unlink (t.index key) p).map fun t' => (t'.cacheEntryDestroy p).startNew key answer
          else (intAdd e.refcnt 1).map fun refcnt =>
            (t.modify p fun e => e.withRefcnt refcnt, some (p, false))

/-- `cache_release`, with the overflow of `e->refcnt--` as a fault. -/
def cacheReleaseInt (p : Ptr) : Option CacheTable :=
  match t.heap p with
  | none => none
  | some e => (intAdd e.refcnt (-1)).bind fun refcnt =>
      let t' := t.modify p fun e => e.withRefcnt refcnt
      if 0 < refcnt then some t'
      else if e.complete && !e.failed then some t'
      else (t'.unlink (t.index e.key) p).map fun t' => t'.cacheEntryDestroy p

end CacheTable

/-! ## What the operations do -/

namespace CacheTable

variable {t t' : CacheTable}

/-- The chains after `p` was taken out of the bucket of `key`. -/
def chainWithout (t : CacheTable) (key : CString) (p : Ptr) (j : Nat) : List Ptr :=
  if j = t.index key then (t.chain j).erase p else t.chain j

/-- No linked entry has the key. -/
def Absent (t : CacheTable) (key : CString) : Prop :=
  ∀ p, t.Linked p → ∀ e, t.heap p = some e → e.key ≠ key

/-- A chain without an entry has the other entries of the chain. -/
theorem WellLinked.mem_chainWithout (linked : t.WellLinked) {p : Ptr} {e : CacheEntry}
    (member : t.Linked p) (found : t.heap p = some e) {j : Nat} (below : j < t.nbuckets)
    {q : Ptr} : q ∈ t.chainWithout e.key p j ↔ q ∈ t.chain j ∧ q ≠ p := by
  unfold chainWithout
  split
  · rw [(linked.path j below).nodup.mem_erase_iff, and_comm]
  · rename_i other
    refine ⟨fun inside => ⟨inside, ?_⟩, And.left⟩
    rintro rfl
    exact other (linked.placed j below q inside e found).symm

/-- Unlinking an entry and destroying it, as both callers do. -/
theorem WellLinked.drop (linked : t.WellLinked) {p : Ptr} {e : CacheEntry} (member : t.Linked p)
    (found : t.heap p = some e) :
    ∃ between, t.unlink (t.index e.key) p = some between ∧ ¬ between.Linked p ∧
      (between.cacheEntryDestroy p).WellLinked ∧
      (between.cacheEntryDestroy p).nbuckets = t.nbuckets ∧
      (between.cacheEntryDestroy p).fresh = t.fresh ∧
      (between.cacheEntryDestroy p).heap p = none ∧
      (∀ q, q ≠ p → ((between.cacheEntryDestroy p).heap q).map CacheEntry.detach =
        (t.heap q).map CacheEntry.detach) ∧
      ∀ j < t.nbuckets, (between.cacheEntryDestroy p).chain j = t.chainWithout e.key p j := by
  obtain ⟨between, unlinked, well, size, bound, same, chains⟩ := linked.unlink
    (index_lt linked.nonempty e.key) (linked.mem_chain member found)
  have out : ¬ between.Linked p := by
    rintro ⟨j, below, inside⟩
    rw [size] at below
    rw [chains j below] at inside
    exact ((linked.mem_chainWithout member found below).mp inside).2 rfl
  obtain ⟨destroyed, kept⟩ := well.cacheEntryDestroy out
  refine ⟨between, unlinked, out, destroyed, size, bound, ?_, ?_, ?_⟩
  · simp [CacheTable.cacheEntryDestroy]
  · intro q other
    rw [← same q]
    simp [CacheTable.cacheEntryDestroy, other]
  · intro j below
    rw [kept j (by rw [size]; exact below), chains j below]
    rfl

/-- What `cache_start_or_join` does, case by case. In every case the entries that
are not named keep their fields, and the chains their order. -/
inductive StartOutcome (t : CacheTable) (key : CString) (answer : CreateAnswer) :
    CacheTable → Option (Ptr × Bool) → Prop
  | joined {t' : CacheTable} (p : Ptr) (e : CacheEntry) : t.Linked p → t.heap p = some e →
      e.key = key → ¬ (e.failed = true ∧ e.refcnt = 0) →
      (∀ j < t.nbuckets, t'.chain j = t.chain j) →
      t'.heap = Function.update t.heap p (some (e.withRefcnt (e.refcnt + 1))) →
      StartOutcome t key answer t' (some (p, false))
  | missed {t' : CacheTable} : t.Absent key →
      cacheEntryCreate answer key = some (freshEntry key) → t.heap t.fresh = none →
      (∀ j < t.nbuckets, t'.chain j =
        if j = t.index key then t.fresh :: t.chain j else t.chain j) →
      (t'.heap t.fresh).map CacheEntry.detach = some (freshEntry key) →
      (∀ q, q ≠ t.fresh → t'.heap q = t.heap q) →
      StartOutcome t key answer t' (some (t.fresh, true))
  | refused : t.Absent key → cacheEntryCreate answer key = none →
      StartOutcome t key answer t none
  | recreated {t' : CacheTable} (p : Ptr) (e : CacheEntry) : t.Linked p → t.heap p = some e →
      e.key = key → e.failed = true → e.refcnt = 0 →
      cacheEntryCreate answer key = some (freshEntry key) → t.heap t.fresh = none →
      (∀ j < t.nbuckets, t'.chain j =
        if j = t.index key then t.fresh :: t.chainWithout key p j else t.chainWithout key p j) →
      t'.heap p = none → (t'.heap t.fresh).map CacheEntry.detach = some (freshEntry key) →
      (∀ q, q ≠ p → q ≠ t.fresh →
        (t'.heap q).map CacheEntry.detach = (t.heap q).map CacheEntry.detach) →
      StartOutcome t key answer t' (some (t.fresh, true))
  | dropped {t' : CacheTable} (p : Ptr) (e : CacheEntry) : t.Linked p → t.heap p = some e →
      e.key = key → e.failed = true → e.refcnt = 0 → cacheEntryCreate answer key = none →
      (∀ j < t.nbuckets, t'.chain j = t.chainWithout key p j) → t'.heap p = none →
      (∀ q, q ≠ p → (t'.heap q).map CacheEntry.detach = (t.heap q).map CacheEntry.detach) →
      StartOutcome t key answer t' none

/-- What `cache_release` does: it removes exactly the given entry, or nothing. -/
inductive ReleaseOutcome (t : CacheTable) (p : Ptr) (e : CacheEntry) : CacheTable → Prop
  | kept {t' : CacheTable} : 0 < e.refcnt - 1 ∨ (e.complete = true ∧ e.failed = false) →
      (∀ j < t.nbuckets, t'.chain j = t.chain j) →
      t'.heap = Function.update t.heap p (some (e.withRefcnt (e.refcnt - 1))) →
      ReleaseOutcome t p e t'
  | removed {t' : CacheTable} :
      ¬ (0 < e.refcnt - 1 ∨ (e.complete = true ∧ e.failed = false)) →
      (∀ j < t.nbuckets, t'.chain j = t.chainWithout e.key p j) → t'.heap p = none →
      (∀ q, q ≠ p → (t'.heap q).map CacheEntry.detach = (t.heap q).map CacheEntry.detach) →
      ReleaseOutcome t p e t'

variable {key : CString} {answer : CreateAnswer}

/-- A new entry for an absent key is in front of its chain and everything else is
as before. -/
theorem WellLinked.startNew (linked : t.WellLinked) (absent : t.Absent key)
    (answer : CreateAnswer) :
    (t.startNew key answer).1.WellLinked ∧ (t.startNew key answer).1.nbuckets = t.nbuckets ∧
      StartOutcome t key answer (t.startNew key answer).1 (t.startNew key answer).2 := by
  cases created : cacheEntryCreate answer key with
  | none =>
      rw [CacheTable.startNew, created]
      exact ⟨linked, rfl, .refused absent created⟩
  | some e =>
      obtain rfl := cacheEntryCreate_eq created
      obtain ⟨well, chains⟩ := linked.push (e := freshEntry key) absent
      rw [CacheTable.startNew, created]
      refine ⟨well, rfl, .missed absent created (linked.bounded _ le_rfl) chains ?_ ?_⟩
      · simp [CacheTable.push, CacheEntry.detach, freshEntry]
      · intro q other
        simp [CacheTable.push, other]

/-- Dropping a failed entry and creating another one for its key. -/
theorem WellLinked.recreate (linked : t.WellLinked) {p : Ptr} {e : CacheEntry}
    (member : t.Linked p) (found : t.heap p = some e) (same : e.key = key)
    (failed : e.failed = true) (unheld : e.refcnt = 0) (answer : CreateAnswer) :
    ∃ between, t.unlink (t.index key) p = some between ∧
      ((between.cacheEntryDestroy p).startNew key answer).1.WellLinked ∧
      ((between.cacheEntryDestroy p).startNew key answer).1.nbuckets = t.nbuckets ∧
      StartOutcome t key answer ((between.cacheEntryDestroy p).startNew key answer).1
        ((between.cacheEntryDestroy p).startNew key answer).2 := by
  subst same
  obtain ⟨between, unlinked, _, well, size, bound, gone, kept, chains⟩ := linked.drop member found
  refine ⟨between, unlinked, ?_⟩
  have index_eq : (between.cacheEntryDestroy p).index e.key = t.index e.key := by
    simp [index, size]
  have absent : (between.cacheEntryDestroy p).Absent e.key := by
    rintro q ⟨j, below, inside⟩ f there equal
    rw [size] at below
    rw [chains j below] at inside
    obtain ⟨before, other⟩ := (linked.mem_chainWithout member found below).mp inside
    obtain ⟨old, prior, detached⟩ := exists_of_detach (kept q other) there
    exact other (linked.distinct q p ⟨j, below, before⟩ member old e prior found
      ((key_of_detach detached).symm.trans equal))
  obtain ⟨again, size', outcome⟩ := well.startNew absent answer
  refine ⟨again, size'.trans size, ?_⟩
  cases created : cacheEntryCreate answer e.key with
  | none =>
      rw [CacheTable.startNew, created]
      exact .dropped p e member found rfl failed unheld created chains gone kept
  | some fresh =>
      obtain rfl := cacheEntryCreate_eq created
      obtain ⟨_, pushed⟩ := well.push (e := freshEntry e.key) absent
      have older : p ≠ t.fresh := (linked.lt_fresh found).ne
      rw [CacheTable.startNew, created]
      simp only [bound]
      refine .recreated p e member found rfl failed unheld created
        (linked.bounded _ le_rfl) ?_ ?_ ?_ ?_
      · intro j below
        have put := pushed j (by rw [size]; exact below)
        rw [chains j below, bound] at put
        simpa only [freshEntry, index_eq] using put
      · simp [CacheTable.push, bound, older, gone]
      · simp [CacheTable.push, bound, CacheEntry.detach, freshEntry]
      · intro q other newer
        rw [← kept q other]
        simp [CacheTable.push, bound, newer]

/-- Taking or giving up a reference keeps the chains. -/
theorem WellLinked.recount (linked : t.WellLinked) {p : Ptr} {e : CacheEntry}
    (found : t.heap p = some e) (change : Int → Int) :
    (t.modify p fun e => e.withRefcnt (change e.refcnt)).WellLinked ∧
      (∀ j, (t.modify p fun e => e.withRefcnt (change e.refcnt)).chain j = t.chain j) ∧
      (t.modify p fun e => e.withRefcnt (change e.refcnt)).heap =
        Function.update t.heap p (some (e.withRefcnt (change e.refcnt))) := by
  have chains : (t.modify p fun e => e.withRefcnt (change e.refcnt)).chain = t.chain :=
    modify_chain fun _ _ => rfl
  exact ⟨linked.modify (fun _ _ => rfl) (fun _ _ => rfl), congrFun chains,
    by simp [CacheTable.modify, found]⟩

/-- **`cache_start_or_join`** neither faults nor runs on, and does one of the
five things `StartOutcome` lists. -/
theorem WellLinked.cacheStartOrJoin (linked : t.WellLinked) (key : CString)
    (answer : CreateAnswer) :
    ∃ t' result, t.cacheStartOrJoin key answer = some (t', result) ∧ t'.WellLinked ∧
      t'.nbuckets = t.nbuckets ∧ StartOutcome t key answer t' result := by
  rcases linked.scan_eq key with ⟨p, e, searched, member, found, same⟩ | ⟨searched, absent⟩
  · by_cases drop : e.failed = true ∧ e.refcnt = 0
    · obtain ⟨between, unlinked, well, size, outcome⟩ :=
        linked.recreate member found same drop.1 drop.2 answer
      refine ⟨_, _, ?_, well, size, outcome⟩
      simp [CacheTable.cacheStartOrJoin, searched, found, decideFound, drop, unlinked]
    · obtain ⟨well, chains, heap⟩ := linked.recount found (· + 1)
      refine ⟨_, _, ?_, well, rfl, .joined p e member found same drop
        (fun j _ => chains j) heap⟩
      simp [CacheTable.cacheStartOrJoin, searched, found, decideFound, drop]
  · obtain ⟨well, size, outcome⟩ := linked.startNew absent answer
    exact ⟨_, _, by simp [CacheTable.cacheStartOrJoin, searched], well, size, outcome⟩

/-- **`cache_release`** of a linked entry neither faults nor runs on, and
removes exactly that entry or nothing. -/
theorem WellLinked.cacheRelease (linked : t.WellLinked) {p : Ptr} {e : CacheEntry}
    (member : t.Linked p) (found : t.heap p = some e) :
    ∃ t', t.cacheRelease p = some t' ∧ t'.WellLinked ∧ t'.nbuckets = t.nbuckets ∧
      ReleaseOutcome t p e t' := by
  obtain ⟨well, chains, heap⟩ : (t.decrement p).WellLinked ∧
      (∀ j, (t.decrement p).chain j = t.chain j) ∧ (t.decrement p).heap =
        Function.update t.heap p (some (e.withRefcnt (e.refcnt - 1))) :=
    linked.recount found (· - 1)
  by_cases more : 0 < e.refcnt - 1
  · refine ⟨t.decrement p, ?_, well, rfl, .kept (.inl more) (fun j _ => chains j) heap⟩
    simp only [CacheTable.cacheRelease, found, if_pos more]
  · by_cases keep : e.complete = true ∧ e.failed = false
    · refine ⟨t.decrement p, ?_, well, rfl, .kept (.inr keep) (fun j _ => chains j) heap⟩
      simp [CacheTable.cacheRelease, found, keep]
    · have member' : (t.decrement p).Linked p := by
        obtain ⟨j, below, inside⟩ := member
        exact ⟨j, below, by rw [chains j]; exact inside⟩
      have found' : (t.decrement p).heap p = some (e.withRefcnt (e.refcnt - 1)) := by
        rw [heap, Function.update_self]
      obtain ⟨between, unlinked, _, well', size, _, gone, kept, without⟩ :=
        well.drop member' found'
      refine ⟨_, ?_, well', size, .removed (not_or.mpr ⟨more, keep⟩) ?_ gone ?_⟩
      · simp only [CacheTable.cacheRelease, found, if_neg more]
        have bad : ¬ (e.complete && !e.failed) = true := by simpa using keep
        have unlinked' : (t.decrement p).unlink (t.index e.key) p = some between := unlinked
        rw [if_neg bad, unlinked', Option.map_some]
      · intro j below
        rw [without j below]
        simp only [chainWithout, chains j]
        rfl
      · intro q other
        rw [kept q other, heap, Function.update_of_ne other]

/-! ## Counts that do not overflow -/

/-- All entries in memory count their references with an `int`. -/
def CountsInt (t : CacheTable) : Prop := ∀ p e, t.heap p = some e → e.CountsInt

/-- Nobody can look up the key again: its entry is referenced `INT_MAX` times. -/
def Exhausted (t : CacheTable) (key : CString) : Prop :=
  ∃ p e, t.Linked p ∧ t.heap p = some e ∧ e.key = key ∧ e.refcnt = intMax

/-- A write of the new count is the change of the count. -/
theorem modify_refcnt {p : Ptr} {e : CacheEntry} (found : t.heap p = some e) (change : Int → Int) :
    (t.modify p fun e => e.withRefcnt (change e.refcnt)) =
      t.modify p fun f => f.withRefcnt (change e.refcnt) := by
  simp [CacheTable.modify, found]

/-- A lookup faults exactly for a key that is exhausted. -/
theorem WellLinked.cacheStartOrJoinInt (linked : t.WellLinked) (counts : t.CountsInt)
    (key : CString) (answer : CreateAnswer) :
    t.Exhausted key ∧ t.cacheStartOrJoinInt key answer = none ∨
      ¬ t.Exhausted key ∧
        t.cacheStartOrJoinInt key answer = t.cacheStartOrJoin key answer := by
  rcases linked.scan_eq key with ⟨p, e, searched, member, found, same⟩ | ⟨searched, absent⟩
  · by_cases full : e.refcnt = intMax
    · refine .inl ⟨⟨p, e, member, found, same, full⟩, ?_⟩
      have joins : ¬ (e.failed = true ∧ e.refcnt = 0) := by
        rw [full]
        exact fun ⟨_, zero⟩ => absurd zero (by decide)
      have overflows : intAdd e.refcnt 1 = none := by
        rw [full]
        decide
      simp only [CacheTable.cacheStartOrJoinInt, searched, found, joins, overflows, ↓reduceIte,
        Option.map_none]
    · have room : ¬ t.Exhausted key := by
        rintro ⟨q, f, inside, there, equal, most⟩
        obtain rfl := linked.distinct q p inside member f e there found (equal.trans same.symm)
        obtain rfl := Option.some.inj (there.symm.trans found)
        exact full most
      refine .inr ⟨room, ?_⟩
      simp only [CacheTable.cacheStartOrJoinInt, CacheTable.cacheStartOrJoin, decideFound,
        searched, found, (counts p e found).increment full, Option.map_some,
        modify_refcnt found (· + 1)]
  · refine .inr ⟨fun ⟨p, e, member, found, same, _⟩ => absent p member e found same, ?_⟩
    simp only [CacheTable.cacheStartOrJoinInt, CacheTable.cacheStartOrJoin, searched]

/-- A release faults exactly where the count is as low as an `int` can be. -/
theorem cacheReleaseInt_eq {p : Ptr} {e : CacheEntry} (found : t.heap p = some e)
    (counts : e.CountsInt) :
    e.refcnt = intMin ∧ t.cacheReleaseInt p = none ∨
      e.refcnt ≠ intMin ∧ t.cacheReleaseInt p = t.cacheRelease p := by
  by_cases least : e.refcnt = intMin
  · have underflows : intAdd e.refcnt (-1) = none := by
      rw [least]
      decide
    refine .inl ⟨least, ?_⟩
    simp only [CacheTable.cacheReleaseInt, found, underflows, Option.bind_none]
  · refine .inr ⟨least, ?_⟩
    simp only [CacheTable.cacheReleaseInt, CacheTable.cacheRelease, found, counts.decrement least,
      Option.bind_some, decrement, modify_refcnt found (· - 1)]

end CacheTable
end OperationSystems.Cache
