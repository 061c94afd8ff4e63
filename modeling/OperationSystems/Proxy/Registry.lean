import OperationSystems.Foundation.SharedRegistry
import OperationSystems.Proxy.Locks

/-!
# The handlers as users of a shared registry

The cache is a `SharedRegistry`: the workers are its agents, the entries its
objects, and an entry is listed while it is linked. Every step of a worker is an
act of the registry or invisible to it (`simulation`), so the invariant of the
registry holds in every reachable state of the proxy.
-/

namespace OperationSystems.Proxy

open CStrings Cache SharedRegistry

/-- What a worker is to an entry. -/
def role : Pc → Role Ptr
  | .idle => .idle
  | .reading _ => .idle
  | .joining _ .lockTable => .idle
  | .joining _ .search => .idle
  | .joining _ (.lockEntry p) => .inspecting p
  | .joining _ (.readFailed p) => .inspecting p
  | .joining _ (.decide p _) => .inspecting p
  | .joining _ (.logHit p) => .reader p
  | .streaming p _ _ => .reader p
  | .fetching _ p _ _ (.badGateway _) => .quitter p
  | .fetching _ p _ _ (.lockMark false) => .quitter p
  | .fetching _ p _ _ (.mark false) => .quitter p
  | .fetching _ p _ _ _ => .producer p
  | .releasing p amWriter .lockTable => if amWriter then .settled p else .reader p
  | .releasing p amWriter .decrement => if amWriter then .settled p else .reader p
  | .releasing p _ .lockEntry => .retiring p
  | .releasing p _ .readFlags => .retiring p
  | .releasing p _ (.decide _) => .retiring p
  | .releasing _ _ .logCount => .idle
  | .releasing _ _ .logKeep => .idle
  | .releasing p _ .logFreed => .reclaiming p
  | .releasing p _ .destroy => .reclaiming p

@[simp] theorem role_rouse (broadcast : Option Ptr) (pc : Pc) :
    role (rouse broadcast pc) = role pc := by
  rcases rouse_cases broadcast pc with ⟨p, offset, _, rfl, woken⟩ | ⟨same, _⟩
  · rw [woken]
    rfl
  · rw [same]

/-- A worker decides on an entry only inside `t->lock`. -/
theorem table_mem_holding {pc : Pc} (inside : (role pc).inside ≠ none) :
    Lock.table ∈ holding pc := by
  revert inside
  cases pc with
  | idle => simp [role]
  | reading buf => simp [role]
  | joining request point => cases point <;> simp [role, holding]
  | streaming p offset point => simp [role]
  | fetching request p total alive point =>
      cases point with
      | lockMark complete => cases complete <;> simp [role]
      | mark complete => cases complete <;> simp [role]
      | _ => simp [role]
  | releasing p amWriter point =>
      cases point with
      | lockTable => cases amWriter <;> simp [role]
      | decrement => cases amWriter <;> simp [role, holding]
      | _ => simp [role, holding]

/-- What the registry sees of an entry. -/
def item (e : CacheEntry) : Item CString := ⟨e.key, e.refcnt, e.complete, e.failed⟩

/-- The registry of a table and of what the workers are to its entries. -/
def registry {ι : Type*} (t : CacheTable) (roles : ι → Role Ptr) : State ι Ptr CString where
  item := fun p => (t.heap p).map item
  listed := { p | t.Linked p }
  role := roles

/-- What a worker knows about the entry it deals with, at the points where it
relies on it. -/
def Asserts (t : CacheTable) : Pc → Prop
  | .joining request (.lockEntry p) => ∃ e, t.heap p = some e ∧ e.key = request.key
  | .joining request (.readFailed p) => ∃ e, t.heap p = some e ∧ e.key = request.key
  | .joining request (.decide p isFailed) =>
      ∃ e, t.heap p = some e ∧ e.key = request.key ∧ (isFailed = true → e.failed = true)
  | .joining request (.logHit p) => ∃ e, t.heap p = some e ∧ e.key = request.key
  | .streaming p offset .wait =>
      ∃ e, t.heap p = some e ∧ offset = e.size ∧ e.complete = false ∧ e.failed = false
  | .fetching request p _ _ _ => ∃ e, t.heap p = some e ∧ e.key = request.key
  | .releasing p _ (.decide keep) =>
      ∃ e, t.heap p = some e ∧ keep = (e.complete && !e.failed)
  | _ => True

namespace World

variable {ι : Type*}

/-- The registry behind a state. -/
def view (w : World ι) : State ι Ptr CString := registry w.table fun i => role (w.pc i)

/-- The invariant of the proxy that the registry does not see. -/
structure Local (w : World ι) : Prop where
  linked : w.table.WellLinked
  owned : w.Owned
  asserts : ∀ i, Asserts w.table (w.pc i)

/-- An entry as the registry has it. -/
theorem view_item {w : World ι} {p : Ptr} {e : CacheEntry} (found : w.table.heap p = some e) :
    w.view.item p = some (item e) := by
  simp [view, registry, found]

variable {w : World ι} {i : ι} {effect : Effect}

/-- No worker is inside `t->lock` while one is there that deals with no entry yet. -/
theorem Owned.quiet (owned : w.Owned) (inside : Lock.table ∈ holding (w.pc i))
    (free : (role (w.pc i)).inside = none) : w.view.Quiet := by
  intro j
  change (role (w.pc j)).inside = none
  by_contra other
  obtain rfl := owned.unique inside (table_mem_holding other)
  exact other free

/-- With `t->lock` free, nobody decides on an entry. -/
theorem Owned.quiet_of_free (owned : w.Owned) (free : w.lock .table = none) : w.view.Quiet := by
  intro j
  change (role (w.pc j)).inside = none
  by_contra inside
  have owner := (owned .table j).mpr (table_mem_holding inside)
  rw [free] at owner
  cases owner

/-- What a lookup finds failed is held. -/
theorem Local.decide_held [Fintype ι] (here : w.Local) (sound : Sound w.view)
    {request : Request} {p : Ptr} {isFailed : Bool}
    (place : w.pc i = .joining request (.decide p isFailed)) :
    ∃ e, w.table.heap p = some e ∧ e.key = request.key ∧ ¬ (isFailed = true ∧ e.refcnt = 0) := by
  have known := here.asserts i
  rw [place] at known
  obtain ⟨e, found, key, failed⟩ := known
  refine ⟨e, found, key, ?_⟩
  rintro ⟨drop, zero⟩
  have was : w.view.role i = .inspecting p := congrArg role place
  have good := (sound.inspected_good was (view_item found) zero).2
  exact absurd ((failed drop).symm.trans good) (by decide)

/-- So it joins what it finds. -/
theorem Local.decideFound_eq [Fintype ι] (here : w.Local) (sound : Sound w.view)
    {request : Request} {p : Ptr} {isFailed : Bool}
    (place : w.pc i = .joining request (.decide p isFailed)) (answer : CreateAnswer) :
    ∃ e, w.table.heap p = some e ∧ e.key = request.key ∧
      w.table.decideFound request.key p isFailed answer =
        some (w.table.modify p fun e => e.withRefcnt (e.refcnt + 1), some (p, false)) := by
  obtain ⟨e, found, key, held⟩ := here.decide_held sound place
  exact ⟨e, found, key, by simp only [CacheTable.decideFound, found, if_neg held]⟩

variable [DecidableEq ι]

/-- The registry after a step of a worker. -/
def viewAfter (w : World ι) (i : ι) (effect : Effect) : State ι Ptr CString :=
  registry effect.table (Function.update w.view.role i (role effect.pc))

/-- The registry behind a step. -/
theorem view_apply (w : World ι) (i : ι) (effect : Effect) :
    (w.apply i effect).view = w.viewAfter i effect := by
  have roles : (fun j => role ((w.apply i effect).pc j)) =
      Function.update w.view.role i (role effect.pc) := by
    funext j
    change role (w.pcs i effect j) = _
    unfold pcs
    by_cases same : j = i
    · subst same
      simp
    · rw [Function.update_of_ne same, Function.update_of_ne same]
      exact role_rouse effect.broadcast (w.pc j)
  rw [viewAfter, ← roles]
  rfl

/-- A step that leaves the table alone changes at most the worker's role. -/
theorem viewAfter_assign (same : effect.table = w.table) :
    w.viewAfter i effect = w.view.assign i (role effect.pc) := by
  rw [viewAfter, same]
  rfl

/-- A step of the registry in which nothing happens. -/
theorem viewAfter_same (same : effect.table = w.table) (roles : role effect.pc = role (w.pc i)) :
    w.viewAfter i effect = w.view := by
  rw [viewAfter_assign same, roles]
  exact State.assign_self i

/-- A step that changes one entry but for its link. -/
theorem viewAfter_modify {p : Ptr} {e : CacheEntry} {change : CacheEntry → CacheEntry}
    (changed : effect.table = w.table.modify p change) (found : w.table.heap p = some e)
    (link : (change e).next = e.next) :
    w.viewAfter i effect =
      (w.view.store p (item (change e))).assign i (role effect.pc) := by
  have chains : (w.table.modify p change).chain = w.table.chain :=
    CacheTable.modify_chain fun old there => by
      obtain rfl := Option.some.inj (found.symm.trans there)
      exact link
  have listed : { q | (w.table.modify p change).Linked q } = { q | w.table.Linked q } := by
    ext q
    change (∃ index < w.table.nbuckets, q ∈ (w.table.modify p change).chain index) ↔ _
    rw [chains]
    rfl
  have items : (fun q => ((w.table.modify p change).heap q).map item) =
      Function.update w.view.item p (some (item (change e))) := by
    funext q
    by_cases same : q = p
    · subst same
      simp [CacheTable.modify, found]
    · simp [CacheTable.modify, same, view, registry]
  rw [viewAfter, changed, registry, listed, items]
  rfl

/-- A new entry is listed. -/
theorem viewAfter_push {key : CString} (linked : w.table.WellLinked)
    (absent : w.table.Absent key)
    (changed : effect.table = w.table.push (w.table.index key) (freshEntry key)) :
    effect.table.WellLinked ∧ w.viewAfter i effect =
      { (w.view.store w.table.fresh ⟨key, 1, false, false⟩).assign i (role effect.pc) with
        listed := insert w.table.fresh w.view.listed } := by
  obtain ⟨well, chains⟩ : (w.table.push (w.table.index key) (freshEntry key)).WellLinked ∧
      ∀ j < w.table.nbuckets, (w.table.push (w.table.index key) (freshEntry key)).chain j =
        if j = w.table.index key then w.table.fresh :: w.table.chain j else w.table.chain j :=
    linked.push (e := freshEntry key) absent
  have listed : { q | effect.table.Linked q } = insert w.table.fresh { q | w.table.Linked q } := by
    ext q
    rw [changed]
    constructor
    · rintro ⟨j, below, member⟩
      rw [chains j below] at member
      split at member
      · exact (List.mem_cons.mp member).imp id fun before => ⟨j, below, before⟩
      · exact .inr ⟨j, below, member⟩
    · have below := CacheTable.index_lt linked.nonempty key
      rintro (rfl | ⟨j, inside, member⟩)
      · refine ⟨w.table.index key, below, ?_⟩
        rw [chains _ below, if_pos rfl]
        exact List.mem_cons_self
      · refine ⟨j, inside, ?_⟩
        rw [chains j inside]
        split
        · exact List.mem_cons_of_mem _ member
        · exact member
  have items : (fun q => (effect.table.heap q).map item) =
      Function.update w.view.item w.table.fresh (some ⟨key, 1, false, false⟩) := by
    funext q
    rw [changed]
    by_cases same : q = w.table.fresh
    · subst same
      simp [CacheTable.push, item, freshEntry]
    · simp [CacheTable.push, same, view, registry]
  refine ⟨changed ▸ well, ?_⟩
  rw [viewAfter, registry, listed, items]
  rfl

/-- An unlinked entry is no longer listed. -/
theorem viewAfter_unlink {p : Ptr} {e : CacheEntry} (linked : w.table.WellLinked)
    (member : w.table.Linked p) (found : w.table.heap p = some e)
    (changed : w.table.unlink (w.table.index e.key) p = some effect.table) :
    effect.table.WellLinked ∧ w.viewAfter i effect =
      { w.view.assign i (role effect.pc) with listed := w.view.listed \ {p} } := by
  obtain ⟨t', unlinked, well, size, _, same, chains⟩ := linked.unlink
    (CacheTable.index_lt linked.nonempty e.key) (linked.mem_chain member found)
  obtain rfl := Option.some.inj (unlinked.symm.trans changed)
  have listed : { q | effect.table.Linked q } = { q | w.table.Linked q } \ {p} := by
    ext q
    constructor
    · rintro ⟨j, below, here⟩
      rw [size] at below
      rw [chains j below] at here
      obtain ⟨before, other⟩ := (linked.mem_chainWithout member found below).mp here
      exact ⟨⟨j, below, before⟩, other⟩
    · rintro ⟨⟨j, below, before⟩, other⟩
      refine ⟨j, by rw [size]; exact below, ?_⟩
      rw [chains j below]
      exact (linked.mem_chainWithout member found below).mpr ⟨before, other⟩
  have items : (fun q => (effect.table.heap q).map item) = w.view.item := by
    funext q
    have bare : ∀ o : Option CacheEntry, o.map item = (o.map CacheEntry.detach).map item := by
      intro o
      cases o <;> rfl
    rw [bare, same q, ← bare]
    rfl
  refine ⟨well, ?_⟩
  rw [viewAfter, registry, listed, items]
  rfl

/-- A freed entry is no longer there. -/
theorem viewAfter_destroy {p : Ptr} (linked : w.table.WellLinked) (out : ¬ w.table.Linked p)
    (changed : effect.table = w.table.cacheEntryDestroy p) :
    effect.table.WellLinked ∧ w.viewAfter i effect =
      { w.view.assign i (role effect.pc) with item := Function.update w.view.item p none } := by
  obtain ⟨well, chains⟩ := linked.cacheEntryDestroy out
  have listed : { q | effect.table.Linked q } = { q | w.table.Linked q } := by
    ext q
    rw [changed]
    constructor
    · rintro ⟨j, below, here⟩
      exact ⟨j, below, chains j below ▸ here⟩
    · rintro ⟨j, below, here⟩
      exact ⟨j, below, (chains j below).symm ▸ here⟩
  have items : (fun q => (effect.table.heap q).map item) =
      Function.update w.view.item p none := by
    funext q
    rw [changed]
    by_cases same : q = p
    · subst same
      simp [CacheTable.cacheEntryDestroy]
    · simp [CacheTable.cacheEntryDestroy, same, view, registry]
  refine ⟨changed ▸ well, ?_⟩
  rw [viewAfter, registry, listed, items]
  rfl

/-- What a step owes the proxy's invariant and the registry. -/
structure Refined (w : World ι) (i : ι) (effect : Effect) : Prop where
  linked : effect.table.WellLinked
  asserts : Asserts effect.table effect.pc
  view : w.viewAfter i effect = w.view ∨ Move w.view (w.viewAfter i effect)

/-- A step that the registry does not see. -/
theorem Refined.silent (here : w.Local) (same : effect.table = w.table)
    (roles : role effect.pc = role (w.pc i)) (asserts : Asserts w.table effect.pc) :
    w.Refined i effect :=
  ⟨same ▸ here.linked, same ▸ asserts, .inl (viewAfter_same same roles)⟩

/-- A step that changes the worker's role and nothing else. -/
theorem Refined.turn (here : w.Local) (same : effect.table = w.table)
    (asserts : Asserts w.table effect.pc)
    (move : Move w.view (w.view.assign i (role effect.pc))) : w.Refined i effect :=
  ⟨same ▸ here.linked, same ▸ asserts, .inr (viewAfter_assign same ▸ move)⟩

/-- A step that changes one entry but for its key and its link. -/
theorem Refined.change (here : w.Local) {p : Ptr} {e : CacheEntry}
    {change : CacheEntry → CacheEntry} (changed : effect.table = w.table.modify p change)
    (found : w.table.heap p = some e) (link : (change e).next = e.next)
    (key : (change e).key = e.key) (asserts : Asserts effect.table effect.pc)
    (move : (w.view.store p (item (change e))).assign i (role effect.pc) = w.view ∨
      Move w.view ((w.view.store p (item (change e))).assign i (role effect.pc))) :
    w.Refined i effect := by
  have only : ∀ old, w.table.heap p = some old → old = e := fun old there =>
    Option.some.inj (there.symm.trans found)
  refine ⟨changed ▸ here.linked.modify (fun old there => only old there ▸ link)
    (fun old there => only old there ▸ key), asserts, ?_⟩
  rw [viewAfter_modify changed found link]
  exact move

/-- Reading a request is invisible to the registry. -/
theorem stepRead_refined (here : w.Local) {buf : List UInt8} {answers : Answers}
    (place : w.pc i = .reading buf) (moved : stepRead w.table buf answers = some effect) :
    w.Refined i effect := by
  rcases stepRead_cases moved with rfl | ⟨more, rfl⟩ | ⟨request, rfl⟩
  · exact .silent here rfl (by rw [place]; rfl) trivial
  · exact .silent here rfl (by rw [place]; rfl) trivial
  · exact .silent here rfl (by rw [place]; rfl) trivial

/-- A lookup is an act on the registry or invisible there. -/
theorem stepJoin_refined [Fintype ι] (here : w.Local) (sound : Sound w.view) {request : Request}
    {answers : Answers} {point : JoinPoint} (place : w.pc i = .joining request point)
    (moved : stepJoin w.table request answers point = some effect) : w.Refined i effect := by
  have known := here.asserts i
  have was : w.view.role i = role (.joining request point) := congrArg role place
  rw [place] at known
  cases point with
  | lockTable =>
      obtain rfl := Option.some.inj moved
      exact .silent here rfl (by rw [place]; rfl) trivial
  | search =>
      have quiet : w.view.Quiet := here.owned.quiet (i := i) (by rw [place]; simp [holding])
        (by rw [place]; rfl)
      rcases here.linked.scan_eq request.key with
        ⟨p, e, searched, member, found, key⟩ | ⟨searched, absent⟩
      · simp only [stepJoin, searched, Option.some.injEq] at moved
        subst moved
        exact .turn here rfl ⟨e, found, key⟩ (.inspect i p was member quiet)
      · simp only [stepJoin, searched, Option.some.injEq] at moved
        subst moved
        cases created : cacheEntryCreate answers.create request.key with
        | none =>
            rw [CacheTable.startNew, created]
            exact .silent here rfl (by rw [place]; rfl) trivial
        | some e =>
            obtain rfl := cacheEntryCreate_eq created
            rw [CacheTable.startNew, created]
            have pushed : (afterJoin request (w.table.push (w.table.index request.key)
                (freshEntry request.key), some (w.table.fresh, true))).table =
              w.table.push (w.table.index request.key) (freshEntry request.key) := rfl
            obtain ⟨well, after⟩ := viewAfter_push (i := i) here.linked absent pushed
            refine ⟨well, ⟨{ freshEntry request.key with
              next := w.table.buckets (w.table.index request.key) }, ?_, rfl⟩, .inr ?_⟩
            · simp [afterJoin, CacheTable.push]
            · rw [after]
              refine .create i w.table.fresh request.key was ?_ quiet ?_
              · simp [view, registry, here.linked.bounded w.table.fresh le_rfl]
              · intro q listed same
                obtain ⟨it, there, equal⟩ := Option.map_eq_some_iff.mp same
                obtain ⟨e, found, rfl⟩ := Option.map_eq_some_iff.mp there
                exact absent q listed e found equal
  | lockEntry p =>
      obtain rfl := Option.some.inj moved
      exact .silent here rfl (by rw [place]; rfl) known
  | readFailed p =>
      obtain ⟨e, found, rfl⟩ := Option.map_eq_some_iff.mp moved
      obtain ⟨old, there, key⟩ := known
      obtain rfl := Option.some.inj (found.symm.trans there)
      exact .silent here rfl (by rw [place]; rfl) ⟨e, found, key, id⟩
  | decide p isFailed =>
      obtain ⟨e, found, key, joins⟩ := here.decideFound_eq sound place answers.create
      obtain ⟨result, decided, rfl⟩ := Option.map_eq_some_iff.mp moved
      obtain rfl := Option.some.inj (joins.symm.trans decided)
      refine .change here (p := p) rfl found rfl rfl
        ⟨e.withRefcnt (e.refcnt + 1), by simp [afterJoin, CacheTable.modify, found], key⟩ (.inr ?_)
      exact .join i p (item e) was (view_item found)
  | logHit p =>
      obtain rfl := Option.some.inj moved
      exact .silent here rfl (by rw [place]; rfl) trivial

/-- So is a step of a reader. -/
theorem stepStream_refined (here : w.Local) {p : Ptr} {offset : Nat} {answers : Answers}
    {point : StreamPoint} (place : w.pc i = .streaming p offset point)
    (moved : stepStream w.table p offset answers point = some effect) : w.Refined i effect := by
  cases point with
  | lockEntry =>
      obtain rfl := Option.some.inj moved
      exact .silent here rfl (by rw [place]; rfl) trivial
  | pass =>
      obtain ⟨e, found, rfl⟩ := Option.map_eq_some_iff.mp moved
      cases passed : streamPass e offset with
      | wait =>
          exact .silent here rfl (by rw [place]; rfl) ⟨e, found, streamPass_wait passed⟩
      | failed => exact .silent here rfl (by rw [place]; rfl) trivial
      | finished => exact .silent here rfl (by rw [place]; rfl) trivial
      | copied chunk next =>
          dsimp only
          cases sendAllStart chunk with
          | sending left => exact .silent here rfl (by rw [place]; rfl) trivial
          | returned => exact .silent here rfl (by rw [place]; rfl) trivial
          | error => exact .silent here rfl (by rw [place]; rfl) trivial
  | wait =>
      obtain rfl := Option.some.inj moved
      exact .silent here rfl (by rw [place]; rfl) trivial
  | send left =>
      obtain rfl := Option.some.inj moved
      cases sendAll left answers.send with
      | sending left => exact .silent here rfl (by rw [place]; rfl) trivial
      | returned => exact .silent here rfl (by rw [place]; rfl) trivial
      | error => exact .silent here rfl (by rw [place]; rfl) trivial

/-- So is one of a writer. -/
theorem stepFetch_refined (here : w.Local) {request : Request} {p : Ptr} {total : Nat}
    {alive : Bool} {answers : Answers} {point : FetchPoint}
    (place : w.pc i = .fetching request p total alive point)
    (moved : stepFetch w.table request p total alive answers point = some effect) :
    w.Refined i effect := by
  have known := here.asserts i
  have was : w.view.role i = role (.fetching request p total alive point) := congrArg role place
  rw [place] at known
  cases point with
  | connect =>
      obtain rfl := Option.some.inj moved
      cases answers.connect with
      | false => exact .turn here rfl known (.quit i p was)
      | true =>
          simp only [↓reduceIte]
          cases request.originRequest with
          | none => exact .turn here rfl known (.quit i p was)
          | some req => exact .silent here rfl (by rw [place]; rfl) known
  | badGateway left =>
      obtain rfl := Option.some.inj moved
      cases sendAll left answers.send with
      | sending left => exact .silent here rfl (by rw [place]; rfl) known
      | returned => exact .silent here rfl (by rw [place]; rfl) known
      | error => exact .silent here rfl (by rw [place]; rfl) known
  | sendRequest left =>
      obtain rfl := Option.some.inj moved
      cases sendAll left answers.send with
      | sending left => exact .silent here rfl (by rw [place]; rfl) known
      | returned => exact .silent here rfl (by rw [place]; rfl) known
      | error => exact .turn here rfl known (.quit i p was)
  | recv =>
      simp only [stepFetch] at moved
      split at moved
      · obtain rfl := Option.some.inj moved
        exact .silent here rfl (by rw [place]) known
      · obtain rfl := Option.some.inj moved
        by_cases some : 0 < total
        · simp only [some, decide_true]
          exact .silent here rfl (by rw [place]; rfl) known
        · simp only [some, decide_false]
          exact .turn here rfl known (.quit i p was)
      · obtain rfl := Option.some.inj moved
        exact .turn here rfl known (.quit i p was)
      · obtain rfl := Option.some.inj moved
        exact .silent here rfl (by rw [place]; rfl) known
      · obtain ⟨block, given, rfl⟩ := Option.map_eq_some_iff.mp moved
        exact .silent here rfl (by rw [place]; rfl) known
  | lockAppend block =>
      obtain rfl := Option.some.inj moved
      exact .silent here rfl (by rw [place]; rfl) known
  | append block =>
      obtain ⟨e, found, rfl⟩ := Option.map_eq_some_iff.mp moved
      obtain ⟨old, there, key⟩ := known
      obtain rfl := Option.some.inj (found.symm.trans there)
      have frame := cacheAppendData_frame e (some block) answers.realloc
      have after : ((w.table.modify p fun e =>
          (cacheAppendData e (some block) answers.realloc).2).heap p) =
            some (cacheAppendData e (some block) answers.realloc).2 := by
        simp [CacheTable.modify, found]
      refine .change here rfl found frame.2.2.2 frame.1 ?_ ?_
      · dsimp only
        split_ifs <;> exact ⟨_, after, frame.1.trans key⟩
      · rcases cacheAppendData_spec e (some block) answers.realloc with
          ⟨next, ran, appended, _⟩ | ⟨ran, _⟩
        · -- a successful append is invisible to the registry
          have same : item next = item e := by
            simp [item, appended.key, appended.refcnt, appended.complete, appended.failed]
          simp only [ran, ne_eq, not_true_eq_false, ↓reduceIte, same]
          rw [State.store_self (view_item found)]
          refine .inl ?_
          cases alive with
          | false => exact was ▸ State.assign_self i
          | true => exact was ▸ State.assign_self i
        · simp only [ran, ne_eq, reduceCtorEq, not_false_eq_true, ↓reduceIte]
          exact .inr (.spoil i p (item e) was (view_item found))
  | relay left =>
      obtain rfl := Option.some.inj moved
      cases sendAll left answers.send with
      | sending left => exact .silent here rfl (by rw [place]; rfl) known
      | returned => exact .silent here rfl (by rw [place]; rfl) known
      | error => exact .silent here rfl (by rw [place]; rfl) known
  | lockMark complete =>
      obtain rfl := Option.some.inj moved
      cases complete with
      | false => exact .silent here rfl (by rw [place]; rfl) known
      | true => exact .silent here rfl (by rw [place]; rfl) known
  | mark complete =>
      obtain ⟨e, found, rfl⟩ := Option.map_eq_some_iff.mp moved
      cases complete with
      | false =>
          exact .change here rfl found rfl rfl trivial
            (.inr (.fail i p (item e) was (view_item found)))
      | true =>
          exact .change here rfl found rfl rfl trivial
            (.inr (.complete i p (item e) was (view_item found)))

/-- So is one of a release. -/
theorem stepRelease_refined [Fintype ι] (here : w.Local) (sound : Sound w.view) {p : Ptr}
    {amWriter : Bool} {point : ReleasePoint} (place : w.pc i = .releasing p amWriter point)
    (moved : stepRelease w.table p amWriter point = some effect) : w.Refined i effect := by
  have known := here.asserts i
  have was : w.view.role i = role (.releasing p amWriter point) := congrArg role place
  rw [place] at known
  cases point with
  | lockTable =>
      obtain rfl := Option.some.inj moved
      exact .silent here rfl (by rw [place]; rfl) trivial
  | decrement =>
      have holds : w.view.role i = .reader p ∨ w.view.role i = .settled p := by
        cases amWriter with
        | false => exact .inl was
        | true => exact .inr was
      obtain ⟨e, found, rfl⟩ := Option.map_eq_some_iff.mp moved
      by_cases more : 0 < e.refcnt - 1
      · rw [if_pos more]
        exact .change here rfl found rfl rfl trivial
          (.inr (.leave i p (item e) holds (view_item found) more))
      · rw [if_neg more]
        have quiet : w.view.Quiet := here.owned.quiet (i := i) (by rw [place]; simp [holding])
          (by rw [place]; cases amWriter <;> rfl)
        exact .change here rfl found rfl rfl trivial
          (.inr (.retire i p (item e) holds (view_item found) more quiet))
  | lockEntry =>
      obtain rfl := Option.some.inj moved
      exact .silent here rfl (by rw [place]; rfl) trivial
  | readFlags =>
      obtain ⟨e, found, rfl⟩ := Option.map_eq_some_iff.mp moved
      exact .silent here rfl (by rw [place]; rfl) ⟨e, found, rfl⟩
  | decide keep =>
      obtain ⟨e, found, decided⟩ := known
      have item_e := view_item found
      cases keep with
      | true =>
          obtain rfl := Option.some.inj moved
          obtain ⟨complete, sane⟩ : e.complete = true ∧ e.failed = false := by
            simpa using decided.symm
          exact .turn here rfl trivial (.keep i p (item e) was item_e complete sane)
      | false =>
          have bad : e.complete = false ∨ e.failed = true := by
            cases complete : e.complete with
            | false => exact .inl rfl
            | true => exact .inr (by simpa [complete] using decided)
          obtain ⟨old, there, moved⟩ := Option.bind_eq_some_iff.mp moved
          obtain rfl := Option.some.inj (found.symm.trans there)
          obtain ⟨t', unlinked, rfl⟩ := Option.map_eq_some_iff.mp moved
          have member : w.table.Linked p := sound.listing.inside_listed i p (by rw [was]; rfl)
          have changed : w.table.unlink (w.table.index e.key) p = some (Effect.table
              ⟨.releasing p amWriter .logFreed, t', none, some .table, none⟩) := unlinked
          obtain ⟨well, after⟩ := viewAfter_unlink (i := i) here.linked member found changed
          refine ⟨well, trivial, .inr ?_⟩
          rw [after]
          exact .unlist i p (item e) was item_e bad
  | logCount =>
      obtain rfl := Option.some.inj moved
      exact .silent here rfl (by rw [place]; rfl) trivial
  | logKeep =>
      obtain rfl := Option.some.inj moved
      exact .silent here rfl (by rw [place]; rfl) trivial
  | logFreed =>
      obtain rfl := Option.some.inj moved
      exact .silent here rfl (by rw [place]; rfl) trivial
  | destroy =>
      obtain rfl := Option.some.inj moved
      have out : ¬ w.table.Linked p := (sound.listing.reclaiming_out i p was).1
      have freed : Effect.table ⟨.idle, w.table.cacheEntryDestroy p, none, none, none⟩ =
        w.table.cacheEntryDestroy p := rfl
      obtain ⟨well, after⟩ := viewAfter_destroy (i := i) here.linked out freed
      refine ⟨well, trivial, .inr ?_⟩
      rw [after]
      exact .free i p was

/-- **Every step is an act on the registry** or invisible there. -/
theorem advance_refined [Fintype ι] (here : w.Local) (sound : Sound w.view) {answers : Answers}
    (moved : advance w.table answers (w.pc i) = some effect) : w.Refined i effect := by
  cases place : w.pc i with
  | idle =>
      rw [place] at moved
      obtain rfl := Option.some.inj moved
      exact .silent here rfl (by rw [place]; rfl) trivial
  | reading buf => exact stepRead_refined here place (by simpa [place, advance] using moved)
  | joining request point =>
      exact stepJoin_refined here sound place (by simpa [place, advance] using moved)
  | streaming p offset point =>
      exact stepStream_refined here place (by simpa [place, advance] using moved)
  | fetching request p total alive point =>
      exact stepFetch_refined here place (by simpa [place, advance] using moved)
  | releasing p amWriter point =>
      exact stepRelease_refined here sound place (by simpa [place, advance] using moved)

end World

end OperationSystems.Proxy
