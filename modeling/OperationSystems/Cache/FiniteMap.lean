import OperationSystems.Cache.Operations
import OperationSystems.Foundation.Transition

/-!
# The table as a finite map

What the table is for: a finite map from keys to entries (`Store`), with no
buckets, chains or links. A lookup and a release of the table are those of the
map, and over any sequence of calls the table stays a hash table of it, up to a
lookup of an entry that is referenced `INT_MAX` times.
-/

namespace OperationSystems.Cache

open CStrings

/-- A finite map from keys to entries, without the links of the chains. -/
abbrev Store := CString → Option (Ptr × CacheEntry)

namespace Store

variable (m : Store)

/-- Insert a created entry, or return NULL. -/
def insert (key : CString) (fresh : Ptr) (created : Option CacheEntry) :
    Store × Option (Ptr × Bool) :=
  match created with
  | none => (m, none)
  | some e => (Function.update m key (some (fresh, e)), some (fresh, true))

/-- A lookup joins the entry of the key, except for a failed one that nobody
holds, which is replaced. -/
def startOrJoin (key : CString) (fresh : Ptr) (created : Option CacheEntry) :
    Store × Option (Ptr × Bool) :=
  match m key with
  | none => m.insert key fresh created
  | some (p, e) =>
      if e.failed = true ∧ e.refcnt = 0 then
        insert (Function.update m key none) key fresh created
      else (Function.update m key (some (p, e.withRefcnt (e.refcnt + 1))), some (p, false))

/-- A release gives one reference up; the last one removes the entry unless it
is complete and not failed. -/
def release (key : CString) : Store :=
  match m key with
  | none => m
  | some (p, e) =>
      if 0 < e.refcnt - 1 ∨ (e.complete = true ∧ e.failed = false) then
        Function.update m key (some (p, e.withRefcnt (e.refcnt - 1)))
      else Function.update m key none

end Store

namespace CacheTable

/-- The map a table represents. -/
def view (t : CacheTable) : Store := fun key =>
  match t.scan (t.index key) key with
  | some (some p) => (t.heap p).map fun e => (p, e.detach)
  | _ => none

/-- The entry is linked, with these contents up to its link. -/
def Present (t : CacheTable) (p : Ptr) (contents : CacheEntry) : Prop :=
  t.Linked p ∧ (t.heap p).map CacheEntry.detach = some contents

variable {t t' : CacheTable}

/-- The map has exactly the linked entries, each at its key. -/
theorem WellLinked.view_eq_some (linked : t.WellLinked) {key : CString} {p : Ptr}
    {contents : CacheEntry} :
    t.view key = some (p, contents) ↔ t.Present p contents ∧ contents.key = key := by
  unfold view
  rcases linked.scan_eq key with ⟨q, f, searched, inside, there, rfl⟩ | ⟨searched, absent⟩
  · simp only [searched, there, Option.map_some, Option.some.injEq, Prod.mk.injEq]
    constructor
    · rintro ⟨rfl, rfl⟩
      exact ⟨⟨inside, by simp [there]⟩, rfl⟩
    · rintro ⟨⟨member, here⟩, same⟩
      obtain ⟨e, found, rfl⟩ := Option.map_eq_some_iff.mp here
      obtain rfl := linked.distinct q p inside member f e there found same.symm
      obtain rfl := Option.some.inj (there.symm.trans found)
      exact ⟨rfl, rfl⟩
  · simp only [searched, reduceCtorEq, false_iff]
    rintro ⟨⟨member, here⟩, same⟩
    obtain ⟨e, found, rfl⟩ := Option.map_eq_some_iff.mp here
    exact absent p member e found same

/-- Two tables that link the same entries but for those of one key represent
maps that differ at that key. -/
theorem WellLinked.view_update (linked : t.WellLinked) (linked' : t'.WellLinked) {key : CString}
    {value : Option (Ptr × CacheEntry)} (keyed : ∀ q d, value = some (q, d) → d.key = key)
    (present : ∀ q d, t'.Present q d ↔ value = some (q, d) ∨ (t.Present q d ∧ d.key ≠ key)) :
    t'.view = Function.update t.view key value := by
  funext other
  refine Option.ext fun ⟨q, d⟩ => ?_
  rw [linked'.view_eq_some, present]
  by_cases same : other = key
  · subst same
    rw [Function.update_self]
    constructor
    · rintro ⟨here | ⟨_, apart⟩, equal⟩
      · exact here
      · exact absurd equal apart
    · exact fun here => ⟨.inl here, keyed q d here⟩
  · rw [Function.update_of_ne same, linked.view_eq_some]
    constructor
    · rintro ⟨here | ⟨before, _⟩, equal⟩
      · exact absurd ((keyed q d here).symm.trans equal).symm same
      · exact ⟨before, equal⟩
    · rintro ⟨before, rfl⟩
      exact ⟨.inr ⟨before, same⟩, rfl⟩

variable {key : CString} {answer : CreateAnswer}

/-- Who is linked depends on the chains alone. -/
theorem linked_of_chains (size : t'.nbuckets = t.nbuckets) {p : Ptr}
    (same : ∀ j < t.nbuckets, p ∈ t'.chain j ↔ p ∈ t.chain j) : t'.Linked p ↔ t.Linked p := by
  constructor
  · rintro ⟨j, below, inside⟩
    rw [size] at below
    exact ⟨j, below, (same j below).mp inside⟩
  · rintro ⟨j, below, inside⟩
    exact ⟨j, by rw [size]; exact below, (same j below).mpr inside⟩

/-- An absent key has no value in the map. -/
theorem Absent.of_view (linked : t.WellLinked) (absent : t.Absent key) : t.view key = none := by
  refine Option.eq_none_iff_forall_ne_some.mpr fun ⟨p, d⟩ there => ?_
  obtain ⟨⟨member, here⟩, same⟩ := linked.view_eq_some.mp there
  obtain ⟨e, found, rfl⟩ := Option.map_eq_some_iff.mp here
  exact absent p member e found same

/-- An entry of another key than the linked `p` is another entry. -/
theorem Present.ne {p q : Ptr} {e d : CacheEntry} (found : t.heap p = some e)
    (present : t.Present q d) (apart : d.key ≠ e.key) : q ≠ p := by
  rintro rfl
  have equal : e.detach = d := by simpa [found] using present.2
  exact apart (congrArg CacheEntry.key equal).symm

/-- Changing one linked entry in place changes the map at its key. -/
theorem WellLinked.view_replace (linked : t.WellLinked) (linked' : t'.WellLinked)
    (size : t'.nbuckets = t.nbuckets) {p : Ptr} {e f : CacheEntry} (member : t.Linked p)
    (found : t.heap p = some e) (same : f.key = e.key)
    (chains : ∀ j < t.nbuckets, t'.chain j = t.chain j)
    (heap : t'.heap = Function.update t.heap p (some f)) :
    t'.view = Function.update t.view e.key (some (p, f.detach)) := by
  have links : ∀ q, t'.Linked q ↔ t.Linked q := fun q =>
    linked_of_chains size fun j below => by rw [chains j below]
  refine linked.view_update linked' (fun q d here => ?_) fun q d => ?_
  · obtain ⟨rfl, rfl⟩ := Prod.mk.inj (Option.some.inj here)
    exact same
  · rw [Present, links, heap]
    by_cases this : q = p
    · subst this
      simp only [Function.update_self, Option.map_some, Option.some.injEq, Prod.mk.injEq, true_and]
      constructor
      · exact fun here => .inl here.2
      · rintro (here | ⟨present, apart⟩)
        · exact ⟨member, here⟩
        · exact absurd rfl (present.ne found apart)
    · simp only [Function.update_of_ne this, Option.some.injEq, Prod.mk.injEq, Ne.symm this,
        false_and, false_or]
      refine ⟨fun present => ⟨present, fun equal => ?_⟩, And.left⟩
      obtain ⟨g, there, rfl⟩ := Option.map_eq_some_iff.mp present.2
      exact this (linked.distinct q p present.1 member g e there found equal)

/-- Removing one linked entry removes its key from the map. -/
theorem WellLinked.view_remove (linked : t.WellLinked) (linked' : t'.WellLinked)
    (size : t'.nbuckets = t.nbuckets) {p : Ptr} {e : CacheEntry} (member : t.Linked p)
    (found : t.heap p = some e)
    (chains : ∀ j < t.nbuckets, t'.chain j = t.chainWithout e.key p j)
    (heap : ∀ q, q ≠ p → (t'.heap q).map CacheEntry.detach = (t.heap q).map CacheEntry.detach) :
    t'.view = Function.update t.view e.key none := by
  have inside : ∀ q, t'.Linked q ↔ t.Linked q ∧ q ≠ p := by
    intro q
    constructor
    · rintro ⟨j, below, here⟩
      rw [size] at below
      rw [chains j below] at here
      obtain ⟨before, other⟩ := (linked.mem_chainWithout member found below).mp here
      exact ⟨⟨j, below, before⟩, other⟩
    · rintro ⟨⟨j, below, before⟩, other⟩
      refine ⟨j, by rw [size]; exact below, ?_⟩
      rw [chains j below]
      exact (linked.mem_chainWithout member found below).mpr ⟨before, other⟩
  refine linked.view_update linked' (fun _ _ here => by cases here) fun q d => ?_
  simp only [reduceCtorEq, false_or]
  constructor
  · rintro ⟨here, there⟩
    obtain ⟨before, other⟩ := (inside q).mp here
    rw [heap q other] at there
    refine ⟨⟨before, there⟩, fun equal => ?_⟩
    obtain ⟨g, present, rfl⟩ := Option.map_eq_some_iff.mp there
    exact other (linked.distinct q p before member g e present found equal)
  · rintro ⟨present, apart⟩
    have other := present.ne found apart
    exact ⟨(inside q).mpr ⟨present.1, other⟩, (heap q other).trans present.2⟩

/-- Putting a new entry in front of what is left of the chains when the entries of
its key are gone changes the map at that key. -/
theorem WellLinked.view_push (linked : t.WellLinked) (linked' : t'.WellLinked)
    (size : t'.nbuckets = t.nbuckets) {p : Ptr} {rest : Nat → List Ptr}
    (fresh : t.heap p = none)
    (others : ∀ j < t.nbuckets, ∀ q, q ∈ rest j ↔
      q ∈ t.chain j ∧ ∀ e, t.heap q = some e → e.key ≠ key)
    (chains : ∀ j < t.nbuckets, t'.chain j = if j = t.index key then p :: rest j else rest j)
    (newest : (t'.heap p).map CacheEntry.detach = some (freshEntry key))
    (heap : ∀ j < t.nbuckets, ∀ q ∈ rest j, q ≠ p →
      (t'.heap q).map CacheEntry.detach = (t.heap q).map CacheEntry.detach) :
    t'.view = Function.update t.view key (some (p, freshEntry key)) := by
  have out : ¬ t.Linked p := fun member => by
    obtain ⟨e, found⟩ := linked.allocated member
    rw [fresh] at found
    cases found
  have inside : ∀ q, t'.Linked q ↔ q = p ∨ ∃ j < t.nbuckets, q ∈ rest j := by
    intro q
    constructor
    · rintro ⟨j, below, here⟩
      rw [size] at below
      rw [chains j below] at here
      split at here
      · exact (List.mem_cons.mp here).imp id fun before => ⟨j, below, before⟩
      · exact .inr ⟨j, below, here⟩
    · rintro (rfl | ⟨j, below, before⟩)
      · have below := index_lt linked.nonempty key
        exact ⟨t.index key, by rw [size]; exact below, by rw [chains _ below]; simp⟩
      · refine ⟨j, by rw [size]; exact below, ?_⟩
        rw [chains j below]
        split
        · exact List.mem_cons_of_mem _ before
        · exact before
  refine linked.view_update linked' (fun q d here => ?_) fun q d => ?_
  · obtain ⟨rfl, rfl⟩ := Prod.mk.inj (Option.some.inj here)
    rfl
  · rw [Present, inside]
    by_cases this : q = p
    · subst this
      simp only [newest, Option.some.injEq, Prod.mk.injEq, true_and, true_or]
      exact ⟨.inl, fun either => either.resolve_right fun old => out old.1.1⟩
    · simp only [this, false_or, Option.some.injEq, Prod.mk.injEq, Ne.symm this, false_and]
      constructor
      · rintro ⟨⟨j, below, here⟩, there⟩
        rw [heap j below q here this] at there
        obtain ⟨before, apart⟩ := (others j below q).mp here
        obtain ⟨g, present, rfl⟩ := Option.map_eq_some_iff.mp there
        exact ⟨⟨⟨j, below, before⟩, there⟩, apart g present⟩
      · rintro ⟨⟨⟨j, below, before⟩, there⟩, apart⟩
        have here : q ∈ rest j := (others j below q).mpr ⟨before, fun e found equal => by
          obtain ⟨g, present, rfl⟩ := Option.map_eq_some_iff.mp there
          exact apart (by rw [Option.some.inj (present.symm.trans found)]; exact equal)⟩
        exact ⟨⟨j, below, here⟩, (heap j below q here this).trans there⟩

/-- `cache_start_or_join` refines the lookup of the finite map. -/
theorem StartOutcome.refines (linked : t.WellLinked) (linked' : t'.WellLinked)
    (size : t'.nbuckets = t.nbuckets) {result : Option (Ptr × Bool)}
    (outcome : StartOutcome t key answer t' result) :
    (t'.view, result) = t.view.startOrJoin key t.fresh (cacheEntryCreate answer key) := by
  have known : ∀ p e, t.Linked p → t.heap p = some e → e.key = key →
      t.view key = some (p, e.detach) := fun p e member found same =>
    linked.view_eq_some.mpr ⟨⟨member, by simp [found]⟩, same⟩
  cases outcome with
  | joined p e member found same held chains heap =>
      subst same
      have bare : ¬ (e.detach.failed = true ∧ e.detach.refcnt = 0) := held
      rw [linked.view_replace (f := e.withRefcnt (e.refcnt + 1)) linked' size member found rfl
        chains heap, Store.startOrJoin, known p e member found rfl]
      simp only [if_neg bare]
      rfl
  | missed absent created fresh chains newest others =>
      have same : ∀ j < t.nbuckets, ∀ q, q ∈ t.chain j ↔
          q ∈ t.chain j ∧ ∀ e, t.heap q = some e → e.key ≠ key := fun j below q =>
        (and_iff_left_of_imp fun member => absent q ⟨j, below, member⟩).symm
      rw [linked.view_push linked' size fresh same chains newest fun _ _ q _ other => by
        rw [others q other], Store.startOrJoin, absent.of_view linked, created]
      rfl
  | refused absent created =>
      rw [Store.startOrJoin, absent.of_view linked, created]
      rfl
  | recreated p e member found same failed unheld created fresh chains gone newest others =>
      subst same
      have bare : e.detach.failed = true ∧ e.detach.refcnt = 0 := ⟨failed, unheld⟩
      have without : ∀ j < t.nbuckets, ∀ q, q ∈ t.chainWithout e.key p j ↔
          q ∈ t.chain j ∧ ∀ f, t.heap q = some f → f.key ≠ e.key := by
        intro j below q
        rw [linked.mem_chainWithout member found below]
        refine and_congr_right fun inside => ⟨fun other f there equal => ?_, ?_⟩
        · exact other (linked.distinct q p ⟨j, below, inside⟩ member f e there found equal)
        · rintro apart rfl
          exact apart e found rfl
      rw [linked.view_push linked' size fresh without chains newest fun j below q inside other =>
        others q ((linked.mem_chainWithout member found below).mp inside).2 other,
        Store.startOrJoin, known p e member found rfl, created]
      simp only [if_pos bare, Store.insert, Function.update_idem]
  | dropped p e member found same failed unheld created chains gone others =>
      subst same
      have bare : e.detach.failed = true ∧ e.detach.refcnt = 0 := ⟨failed, unheld⟩
      rw [linked.view_remove linked' size member found chains others, Store.startOrJoin,
        known p e member found rfl, created]
      simp only [if_pos bare]
      rfl

/-- `cache_release` refines the release of the finite map. -/
theorem ReleaseOutcome.refines (linked : t.WellLinked) (linked' : t'.WellLinked)
    (size : t'.nbuckets = t.nbuckets) {p : Ptr} {e : CacheEntry} (member : t.Linked p)
    (found : t.heap p = some e) (outcome : ReleaseOutcome t p e t') :
    t'.view = t.view.release e.key := by
  have known : t.view e.key = some (p, e.detach) :=
    linked.view_eq_some.mpr ⟨⟨member, by simp [found]⟩, rfl⟩
  cases outcome with
  | kept keep chains heap =>
      have bare : 0 < e.detach.refcnt - 1 ∨ (e.detach.complete = true ∧ e.detach.failed = false) :=
        keep
      rw [linked.view_replace (f := e.withRefcnt (e.refcnt - 1)) linked' size member found rfl
        chains heap, Store.release, known]
      simp only [if_pos bare]
      rfl
  | removed bad chains gone others =>
      have bare : ¬ (0 < e.detach.refcnt - 1 ∨
          (e.detach.complete = true ∧ e.detach.failed = false)) := bad
      rw [linked.view_remove linked' size member found chains others, Store.release, known]
      simp only [if_neg bare]

/-- A hash table that links every entry in memory. -/
structure Whole (t : CacheTable) : Prop where
  linked : t.WellLinked
  inTable : ∀ p e, t.heap p = some e → t.Linked p

/-- Who is linked stays so where no chain loses it. -/
theorem Linked.mono {q : Ptr} (size : t'.nbuckets = t.nbuckets)
    (larger : ∀ j < t.nbuckets, q ∈ t.chain j → q ∈ t'.chain j) (member : t.Linked q) :
    t'.Linked q := by
  obtain ⟨j, below, inside⟩ := member
  exact ⟨j, by rw [size]; exact below, larger j below inside⟩

theorem exists_of_map_eq {q : Ptr} {e : CacheEntry} (found : t'.heap q = some e)
    (same : (t'.heap q).map CacheEntry.detach = (t.heap q).map CacheEntry.detach) :
    ∃ old, t.heap q = some old := by
  obtain ⟨old, before, _⟩ := exists_of_detach same found
  exact ⟨old, before⟩

/-- Writing a linked entry leaves it and every other one where it is. -/
theorem Whole.written (whole : t.Whole) {p q : Ptr} {e v f : CacheEntry}
    (found : t.heap p = some e) (heap : t'.heap = Function.update t.heap p (some v))
    (size : t'.nbuckets = t.nbuckets) (chains : ∀ j < t.nbuckets, t'.chain j = t.chain j)
    (there : t'.heap q = some f) : t'.Linked q := by
  obtain ⟨g, before⟩ : ∃ g, t.heap q = some g := by
    by_cases equal : q = p
    · exact ⟨e, equal ▸ found⟩
    · exact ⟨f, by rw [heap, Function.update_of_ne equal] at there; exact there⟩
  exact (whole.inTable q g before).mono size fun j below => by rw [chains j below]; exact id

/-- Taking out a linked entry and freeing it leaves every entry in memory linked. -/
theorem Whole.without (whole : t.Whole) {p q : Ptr} {e f : CacheEntry} (member : t.Linked p)
    (found : t.heap p = some e) (size : t'.nbuckets = t.nbuckets) (gone : t'.heap p = none)
    (there : t'.heap q = some f)
    (others : q ≠ p → (t'.heap q).map CacheEntry.detach = (t.heap q).map CacheEntry.detach)
    (larger : ∀ j < t.nbuckets, q ∈ t.chainWithout e.key p j → q ∈ t'.chain j) : t'.Linked q := by
  have other : q ≠ p := by
    rintro rfl
    rw [gone] at there
    cases there
  obtain ⟨g, before⟩ := exists_of_map_eq there (others other)
  refine (whole.inTable q g before).mono size fun j below inside => larger j below ?_
  exact (whole.linked.mem_chainWithout member found below).mpr ⟨inside, other⟩

/-- A lookup links the entry it creates and leaves no other one in memory unlinked. -/
theorem StartOutcome.whole (whole : t.Whole) (linked' : t'.WellLinked)
    (size : t'.nbuckets = t.nbuckets) {result : Option (Ptr × Bool)}
    (outcome : StartOutcome t key answer t' result) : t'.Whole := by
  refine ⟨linked', fun q f there => ?_⟩
  have first : (∀ j < t.nbuckets, j = t.index key → t.fresh ∈ t'.chain j) → t'.Linked t.fresh := by
    intro inside
    have below := index_lt whole.linked.nonempty key
    exact ⟨t.index key, by rw [size]; exact below, inside _ below rfl⟩
  cases outcome with
  | joined p e member found same held chains heap =>
      exact whole.written found heap size chains there
  | missed absent created fresh chains newest others =>
      by_cases equal : q = t.fresh
      · subst equal
        exact first fun j below here => by rw [chains j below, if_pos here]; simp
      · rw [others q equal] at there
        refine (whole.inTable q f there).mono size fun j below inside => ?_
        rw [chains j below]
        split
        · exact List.mem_cons_of_mem _ inside
        · exact inside
  | refused => exact whole.inTable q f there
  | recreated p e member found same failed unheld created fresh chains gone newest others =>
      subst same
      by_cases equal : q = t.fresh
      · subst equal
        exact first fun j below here => by rw [chains j below, if_pos here]; simp
      · refine whole.without member found size gone there
          (fun other => others q other equal) fun j below inside => ?_
        rw [chains j below]
        split
        · exact List.mem_cons_of_mem _ inside
        · exact inside
  | dropped p e member found same failed unheld created chains gone others =>
      subst same
      exact whole.without member found size gone there (others q) fun j below inside => by
        rw [chains j below]
        exact inside

/-- A release frees the entry that it unlinks. -/
theorem ReleaseOutcome.whole (whole : t.Whole) (linked' : t'.WellLinked)
    (size : t'.nbuckets = t.nbuckets) {p : Ptr} {e : CacheEntry} (member : t.Linked p)
    (found : t.heap p = some e) (outcome : ReleaseOutcome t p e t') : t'.Whole := by
  refine ⟨linked', fun q f there => ?_⟩
  cases outcome with
  | kept keep chains heap =>
      exact whole.written found heap size chains there
  | removed bad chains gone others =>
      exact whole.without member found size gone there (others q) fun j below inside => by
        rw [chains j below]
        exact inside

/-- A call that changes one entry but for its key and its link. -/
theorem Whole.modify (whole : t.Whole) {p : Ptr} {change : CacheEntry → CacheEntry}
    (link : ∀ e, (change e).next = e.next) (same : ∀ e, (change e).key = e.key) :
    (t.modify p change).Whole := by
  refine ⟨whole.linked.modify (fun e _ => link e) (fun e _ => same e), fun q f there => ?_⟩
  obtain ⟨old, before, _⟩ := modify_heap there
  refine Linked.mono (t := t) rfl (fun j _ inside => ?_) (whole.inTable q old before)
  rw [modify_chain fun e _ => link e]
  exact inside

theorem Whole.initial : emptyTable.Whole :=
  ⟨emptyTable_wellLinked.1, fun _ _ found => by cases found⟩

end CacheTable

/-- One call of `cache/cache.c`, with what the library calls inside it answer. -/
inductive TableCall
  | startOrJoin (key : CString) (answer : CreateAnswer)
  | appendData (p : Ptr) (data : Option Block) (answer : ReallocAnswer)
  | markComplete (p : Ptr)
  | markFailed (p : Ptr)
  | release (p : Ptr)

/-- A table, and how many references to an entry `cache_start_or_join` has handed out
that were not given back to `cache_release`. -/
structure Lending where
  table : CacheTable
  outstanding : Ptr → Int

/-- The entry counts this number of references, with an `int`. -/
def CacheEntry.Counts (e : CacheEntry) (n : Int) : Prop := e.refcnt = n ∧ e.CountsInt

theorem CacheEntry.Counts.of_refcnt {e f : CacheEntry} {n : Int} (counts : e.Counts n)
    (same : f.refcnt = e.refcnt) : f.Counts n := by
  unfold Counts CountsInt at *
  rwa [same]

/-- A new entry counts its writer. -/
theorem CacheEntry.Counts.fresh {found : Option CacheEntry} {e : CacheEntry} {key : CString}
    (there : found = some e) (newest : found.map CacheEntry.detach = some (freshEntry key)) :
    e.Counts 1 := by
  subst there
  have same : e.detach = freshEntry key := Option.some.inj newest
  have count : e.refcnt = 1 := congrArg CacheEntry.refcnt same
  refine ⟨count, ?_⟩
  unfold CountsInt
  rw [count]
  decide

namespace Lending

open CacheTable

/-- A new table. -/
def start (t : CacheTable) : Lending := ⟨t, fun _ => 0⟩

/-- The references behind a lookup: the writer has the first one. -/
def handedOut (outstanding : Ptr → Int) : Option (Ptr × Bool) → Ptr → Int
  | none => outstanding
  | some (p, true) => Function.update outstanding p 1
  | some (p, false) => Function.update outstanding p (outstanding p + 1)

/-- An entry in memory is changed in place. -/
def change (s : Lending) (p : Ptr) (f : CacheEntry → CacheEntry) : Option Lending :=
  (s.table.heap p).map fun _ => ⟨s.table.modify p f, s.outstanding⟩

/-- Run one call. The caller passes the address of an entry in memory. -/
def call (s : Lending) : TableCall → Option Lending
  | .startOrJoin key answer => (s.table.cacheStartOrJoinInt key answer).map fun (t, result) =>
      ⟨t, handedOut s.outstanding result⟩
  | .appendData p data answer => s.change p fun e => (cacheAppendData e data answer).2
  | .markComplete p => s.change p cacheMarkComplete
  | .markFailed p => s.change p cacheMarkFailed
  | .release p => (s.table.cacheReleaseInt p).map fun t =>
      ⟨t, Function.update s.outstanding p (s.outstanding p - 1)⟩

/-- The invariant: a hash table that counts the references handed out. -/
structure Balanced (s : Lending) : Prop where
  whole : s.table.Whole
  counts : ∀ p e, s.table.heap p = some e → e.Counts (s.outstanding p)

variable {s next : Lending} {key : CString} {answer : CreateAnswer}

theorem Balanced.countsInt (balanced : s.Balanced) : s.table.CountsInt :=
  fun p e found => (balanced.counts p e found).2

/-- A lookup of a key that has references left is that of the unbounded count. -/
theorem Balanced.lookup_eq (balanced : s.Balanced) (room : ¬ s.table.Exhausted key)
    {after : CacheTable} {result : Option (Ptr × Bool)}
    (ran : s.table.cacheStartOrJoin key answer = some (after, result)) :
    s.call (.startOrJoin key answer) = some ⟨after, handedOut s.outstanding result⟩ := by
  obtain ⟨full, _⟩ | ⟨_, runs⟩ :=
    balanced.whole.linked.cacheStartOrJoinInt balanced.countsInt key answer
  · exact absurd full room
  · simp only [Lending.call, runs, ran, Option.map_some]

/-- Entries that at most have moved in their chain count what they did. -/
theorem Balanced.counts_of_detach (balanced : s.Balanced) {t : CacheTable} {p : Ptr}
    {e : CacheEntry} (found : t.heap p = some e)
    (same : (t.heap p).map CacheEntry.detach = (s.table.heap p).map CacheEntry.detach) :
    e.Counts (s.outstanding p) := by
  obtain ⟨old, before, detached⟩ := exists_of_detach same found
  have count : e.refcnt = old.refcnt :=
    (congrArg CacheEntry.refcnt detached : e.detach.refcnt = old.detach.refcnt)
  exact (balanced.counts p old before).of_refcnt count

/-- A reference more or less is counted as one, where the count stays an `int`. -/
theorem Balanced.counts_write (balanced : s.Balanced) {p q : Ptr} {e f : CacheEntry}
    (found : s.table.heap p = some e) {n k : Int} (same : n - e.refcnt = k - s.outstanding p)
    (lower : intMin ≤ n) (upper : n ≤ intMax)
    (there : Function.update s.table.heap p (some (e.withRefcnt n)) q = some f) :
    f.Counts (Function.update s.outstanding p k q) := by
  by_cases equal : q = p
  · subst equal
    rw [Function.update_self] at there
    obtain rfl := Option.some.inj there
    obtain ⟨count, _⟩ := balanced.counts q e found
    have counted : n = k := by omega
    rw [Function.update_self]
    exact ⟨counted, lower, upper⟩
  · rw [Function.update_of_ne equal] at there ⊢
    exact balanced.counts q f there

/-- A lookup hands out a reference. -/
theorem Balanced.lookup (balanced : s.Balanced)
    (called : s.call (.startOrJoin key answer) = some next) : next.Balanced := by
  have linked := balanced.whole.linked
  obtain ⟨after, result, ran, well, size, outcome⟩ := linked.cacheStartOrJoin key answer
  obtain ⟨_, faults⟩ | ⟨room, runs⟩ := linked.cacheStartOrJoinInt balanced.countsInt key answer
  · simp [Lending.call, faults] at called
  obtain rfl : ⟨after, handedOut s.outstanding result⟩ = next := by
    simpa only [Lending.call, runs, ran, Option.map_some, Option.some.injEq] using called
  refine ⟨outcome.whole balanced.whole well size, fun q f there => ?_⟩
  dsimp only at there ⊢
  cases outcome with
  | joined p e member found same held chains heap =>
      rw [heap] at there
      obtain ⟨_, lower, upper⟩ := balanced.counts p e found
      have below : e.refcnt ≠ intMax := fun most => room ⟨p, e, member, found, same, most⟩
      exact balanced.counts_write found (by omega) (by omega) (by omega) there
  | missed absent created fresh chains newest others =>
      by_cases equal : q = s.table.fresh
      · subst equal
        rw [handedOut, Function.update_self]
        exact .fresh there newest
      · rw [handedOut, Function.update_of_ne equal]
        exact balanced.counts q f (others q equal ▸ there)
  | refused => exact balanced.counts q f there
  | recreated p e member found same failed unheld created fresh chains gone newest others =>
      by_cases equal : q = s.table.fresh
      · subst equal
        rw [handedOut, Function.update_self]
        exact .fresh there newest
      · have other : q ≠ p := by
          rintro rfl
          simp [gone] at there
        rw [handedOut, Function.update_of_ne equal]
        exact balanced.counts_of_detach there (others q other equal)
  | dropped p e member found same failed unheld created chains gone others =>
      have other : q ≠ p := by
        rintro rfl
        simp [gone] at there
      exact balanced.counts_of_detach there (others q other)

/-- A release gives a reference back. -/
theorem Balanced.release (balanced : s.Balanced) {p : Ptr}
    (called : s.call (.release p) = some next) : next.Balanced := by
  obtain ⟨t', released, rfl⟩ := Option.map_eq_some_iff.mp called
  obtain ⟨e, found⟩ : ∃ e, s.table.heap p = some e := by
    refine Option.ne_none_iff_exists'.mp fun gone => ?_
    simp [cacheReleaseInt, gone] at released
  have member := balanced.whole.inTable p e found
  obtain ⟨_, lower, upper⟩ := balanced.counts p e found
  obtain ⟨after, ran, well, size, outcome⟩ := balanced.whole.linked.cacheRelease member found
  obtain ⟨_, faults⟩ | ⟨above, runs⟩ := cacheReleaseInt_eq found ⟨lower, upper⟩
  · simp [faults] at released
  obtain rfl : after = t' := Option.some.inj (ran.symm.trans (runs.symm.trans released))
  refine ⟨outcome.whole balanced.whole well size member found, fun q f there => ?_⟩
  dsimp only at there ⊢
  cases outcome with
  | kept keep chains heap =>
      rw [heap] at there
      exact balanced.counts_write found (by omega) (by omega) (by omega) there
  | removed bad chains gone others =>
      have other : q ≠ p := by
        rintro rfl
        simp [gone] at there
      rw [Function.update_of_ne other]
      exact balanced.counts_of_detach there (others q other)

/-- Changing an entry but for its key, its link and its count. -/
theorem Balanced.change (balanced : s.Balanced) {p : Ptr} (f : CacheEntry → CacheEntry)
    (key : ∀ e, (f e).key = e.key) (link : ∀ e, (f e).next = e.next)
    (count : ∀ e, (f e).refcnt = e.refcnt) (called : s.change p f = some next) :
    next.Balanced := by
  obtain ⟨_, _, rfl⟩ := Option.map_eq_some_iff.mp called
  refine ⟨balanced.whole.modify link key, fun q e there => ?_⟩
  obtain ⟨old, before, result⟩ := modify_heap there
  have same : e.refcnt = old.refcnt := by
    rw [result]
    split
    · exact count old
    · rfl
  exact (balanced.counts q old before).of_refcnt same

/-- **Every call keeps the table a hash table of all entries in memory**, with the count of
an entry that of the references to it. -/
theorem Balanced.call (balanced : s.Balanced) {calling : TableCall}
    (called : s.call calling = some next) : next.Balanced := by
  cases calling with
  | startOrJoin key answer => exact balanced.lookup called
  | appendData p data answer =>
      exact balanced.change _ (fun e => (cacheAppendData_frame e data answer).1)
        (fun e => (cacheAppendData_frame e data answer).2.2.2)
        (fun e => (cacheAppendData_frame e data answer).2.2.1) called
  | markComplete p =>
      exact balanced.change cacheMarkComplete (fun _ => rfl) (fun _ => rfl) (fun _ => rfl) called
  | markFailed p =>
      exact balanced.change cacheMarkFailed (fun _ => rfl) (fun _ => rfl) (fun _ => rfl) called
  | release p => exact balanced.release called

/-- The first entry is that of the key, has not failed, and counts this many references. -/
def Counted (s : Lending) (key : CString) (n : Int) : Prop :=
  s.table.Linked 0 ∧ ∃ e, s.table.heap 0 = some e ∧ e.key = key ∧ e.failed = false ∧ e.refcnt = n

/-- The next lookup joins it. -/
theorem Counted.lookup {n : Int} (counted : s.Counted key n) (balanced : s.Balanced)
    (few : n < intMax) :
    ∃ next, s.call (.startOrJoin key .ok) = some next ∧ next.Balanced ∧
      next.Counted key (n + 1) := by
  obtain ⟨member, e, found, same, sane, count⟩ := counted
  have linked := balanced.whole.linked
  have only : ∀ p f, s.table.Linked p → s.table.heap p = some f → f.key = key →
      p = 0 ∧ f = e := by
    intro p f inside there equal
    obtain rfl := linked.distinct p 0 inside member f e there found (equal.trans same.symm)
    exact ⟨rfl, Option.some.inj (there.symm.trans found)⟩
  have room : ¬ s.table.Exhausted key := by
    rintro ⟨p, f, inside, there, equal, most⟩
    obtain ⟨rfl, rfl⟩ := only p f inside there equal
    omega
  obtain ⟨after, result, ran, well, size, outcome⟩ := linked.cacheStartOrJoin key .ok
  have called := balanced.lookup_eq room ran
  have balanced' := balanced.call called
  refine ⟨_, called, balanced', ?_⟩
  cases outcome with
  | joined p f inside there equal held chains heap =>
      obtain ⟨rfl, rfl⟩ := only p f inside there equal
      have here : after.heap 0 = some (f.withRefcnt (f.refcnt + 1)) := by
        rw [heap, Function.update_self]
      exact ⟨balanced'.whole.inTable 0 _ here, _, here, same, sane, by rw [← count]; rfl⟩
  | missed absent => exact absurd same (absent 0 member e found)
  | refused absent => exact absurd same (absent 0 member e found)
  | recreated p f inside there equal failed =>
      obtain ⟨rfl, rfl⟩ := only p f inside there equal
      exact absurd (sane.symm.trans failed) (by decide)
  | dropped p f inside there equal failed =>
      obtain ⟨rfl, rfl⟩ := only p f inside there equal
      exact absurd (sane.symm.trans failed) (by decide)

end Lending
end OperationSystems.Cache
