import OperationSystems.Foundation.Transition
import OperationSystems.Proxy.Handler

/-!
# Who owns which lock

The owner of a mutex is the worker whose point lies between its lock and its
unlock, so no two workers are between those of one mutex.
-/

namespace OperationSystems.Proxy

open CStrings Cache

/-- The locks a worker holds at a point. -/
def holding : Pc → List Lock
  | .joining _ .search => [.table]
  | .joining _ (.lockEntry _) => [.table]
  | .joining _ (.readFailed p) => [.table, .entry p]
  | .joining _ (.decide _ _) => [.table]
  | .streaming p _ .pass => [.entry p]
  | .fetching _ p _ _ (.append _) => [.entry p]
  | .fetching _ p _ _ (.mark _) => [.entry p]
  | .releasing _ _ .decrement => [.table]
  | .releasing _ _ .lockEntry => [.table]
  | .releasing p _ .readFlags => [.table, .entry p]
  | .releasing _ _ (.decide _) => [.table]
  | _ => []

/-- A step gives up a lock it holds, and its new point holds what it took and has
not given up. -/
def Balanced (pc : Pc) (effect : Effect) : Prop := ∀ l,
  (l ∈ holding effect.pc ↔
    effect.acquire = some l ∨ (l ∈ holding pc ∧ effect.release ≠ some l)) ∧
  (effect.release = some l → l ∈ holding pc)

/-- Behind `cache_start_or_join` no lock is held. -/
theorem holding_afterJoin (request : Request) (result : CacheTable × Option (Ptr × Bool)) :
    holding (afterJoin request result).pc = [] := by
  rcases result with ⟨t, _ | ⟨p, _ | _⟩⟩ <;> rfl

/-- The locks of a lookup. -/
theorem stepJoin_balanced {t : CacheTable} {request : Request} {answers : Answers}
    {point : JoinPoint} {effect : Effect}
    (moved : stepJoin t request answers point = some effect) :
    Balanced (.joining request point) effect := by
  intro l
  cases point with
  | lockTable =>
      obtain rfl := Option.some.inj moved
      simp [holding, eq_comm]
  | search =>
      simp only [stepJoin] at moved
      split at moved
      · cases moved
      · obtain rfl := Option.some.inj moved
        rw [holding_afterJoin]
        simp [holding, afterJoin, eq_comm]
      · obtain rfl := Option.some.inj moved
        simp [holding]
  | lockEntry p =>
      obtain rfl := Option.some.inj moved
      simp [holding, or_comm, eq_comm]
  | readFailed p =>
      obtain ⟨e, found, rfl⟩ := Option.map_eq_some_iff.mp moved
      simp [holding]
      cases l <;> simp [eq_comm]
  | decide p isFailed =>
      obtain ⟨result, decided, rfl⟩ := Option.map_eq_some_iff.mp moved
      rw [holding_afterJoin]
      simp [holding, afterJoin, eq_comm]
  | logHit p =>
      obtain rfl := Option.some.inj moved
      simp [holding]

/-- The locks of a reader. -/
theorem stepStream_balanced {t : CacheTable} {p : Ptr} {offset : Nat} {answers : Answers}
    {point : StreamPoint} {effect : Effect}
    (moved : stepStream t p offset answers point = some effect) :
    Balanced (.streaming p offset point) effect := by
  intro l
  cases point with
  | lockEntry =>
      obtain rfl := Option.some.inj moved
      simp [holding, eq_comm]
  | pass =>
      obtain ⟨e, found, rfl⟩ := Option.map_eq_some_iff.mp moved
      cases passed : streamPass e offset with
      | wait => simp [holding, eq_comm]
      | failed => simp [holding, eq_comm]
      | finished => simp [holding, eq_comm]
      | copied chunk next =>
          dsimp only
          cases sendAllStart chunk <;> simp [holding, eq_comm]
  | wait =>
      obtain rfl := Option.some.inj moved
      simp [holding]
  | send left =>
      obtain rfl := Option.some.inj moved
      cases sendAll left answers.send <;> simp [holding]

/-- The locks of a writer. -/
theorem stepFetch_balanced {t : CacheTable} {request : Request} {p : Ptr} {total : Nat}
    {alive : Bool} {answers : Answers} {point : FetchPoint} {effect : Effect}
    (moved : stepFetch t request p total alive answers point = some effect) :
    Balanced (.fetching request p total alive point) effect := by
  intro l
  cases point with
  | connect =>
      obtain rfl := Option.some.inj moved
      cases answers.connect with
      | false => simp [holding]
      | true => cases request.originRequest <;> simp [holding]
  | badGateway left =>
      obtain rfl := Option.some.inj moved
      cases sendAll left answers.send <;> simp [holding]
  | sendRequest left =>
      obtain rfl := Option.some.inj moved
      cases sendAll left answers.send <;> simp [holding]
  | recv =>
      simp only [stepFetch] at moved
      split at moved
      · obtain rfl := Option.some.inj moved
        simp [holding]
      · obtain rfl := Option.some.inj moved
        simp [holding]
      · obtain rfl := Option.some.inj moved
        simp [holding]
      · obtain rfl := Option.some.inj moved
        simp [holding]
      · obtain ⟨block, given, rfl⟩ := Option.map_eq_some_iff.mp moved
        simp [holding]
  | lockAppend block =>
      obtain rfl := Option.some.inj moved
      simp [holding, eq_comm]
  | append block =>
      obtain ⟨e, found, rfl⟩ := Option.map_eq_some_iff.mp moved
      dsimp only
      split_ifs <;> simp [holding, eq_comm]
  | relay left =>
      obtain rfl := Option.some.inj moved
      cases sendAll left answers.send <;> simp [holding]
  | lockMark complete =>
      obtain rfl := Option.some.inj moved
      simp [holding, eq_comm]
  | mark complete =>
      obtain ⟨e, found, rfl⟩ := Option.map_eq_some_iff.mp moved
      simp [holding, eq_comm]

/-- The locks of a release. -/
theorem stepRelease_balanced {t : CacheTable} {p : Ptr} {amWriter : Bool} {point : ReleasePoint}
    {effect : Effect} (moved : stepRelease t p amWriter point = some effect) :
    Balanced (.releasing p amWriter point) effect := by
  intro l
  cases point with
  | lockTable =>
      obtain rfl := Option.some.inj moved
      simp [holding, eq_comm]
  | decrement =>
      obtain ⟨e, found, rfl⟩ := Option.map_eq_some_iff.mp moved
      split_ifs <;> simp [holding, eq_comm]
  | lockEntry =>
      obtain rfl := Option.some.inj moved
      simp [holding, or_comm, eq_comm]
  | readFlags =>
      obtain ⟨e, found, rfl⟩ := Option.map_eq_some_iff.mp moved
      cases l <;> simp [holding, eq_comm]
  | decide keep =>
      cases keep with
      | true =>
          obtain rfl := Option.some.inj moved
          simp [holding, eq_comm]
      | false =>
          obtain ⟨e, found, moved⟩ := Option.bind_eq_some_iff.mp moved
          obtain ⟨t', unlinked, rfl⟩ := Option.map_eq_some_iff.mp moved
          simp [holding, eq_comm]
  | logCount =>
      obtain rfl := Option.some.inj moved
      simp [holding]
  | logKeep =>
      obtain rfl := Option.some.inj moved
      simp [holding]
  | logFreed =>
      obtain rfl := Option.some.inj moved
      simp [holding]
  | destroy =>
      obtain rfl := Option.some.inj moved
      simp [holding]

/-- What a worker that still reads its request can do: read on, give up, or go to
the cache. -/
theorem stepRead_cases {t : CacheTable} {buf : List UInt8} {answers : Answers} {effect : Effect}
    (moved : stepRead t buf answers = some effect) :
    effect = { pc := .idle, table := t } ∨ (∃ more, effect = { pc := .reading more, table := t }) ∨
      ∃ request, effect = { pc := .joining request .lockTable, table := t } := by
  unfold stepRead at moved
  split at moved
  · cases moved
  · exact .inl (Option.some.inj moved).symm
  · exact .inr (.inl ⟨_, (Option.some.inj moved).symm⟩)
  · split at moved
    · cases moved
    · exact .inl (Option.some.inj moved).symm
    · exact .inr (.inr ⟨_, (Option.some.inj moved).symm⟩)

/-- **One step** takes and gives back what its places say. -/
theorem advance_balanced {t : CacheTable} {answers : Answers} {pc : Pc} {effect : Effect}
    (moved : advance t answers pc = some effect) : Balanced pc effect := by
  cases pc with
  | idle =>
      obtain rfl := Option.some.inj moved
      intro l
      simp [holding]
  | reading buf =>
      intro l
      rcases stepRead_cases moved with rfl | ⟨more, rfl⟩ | ⟨request, rfl⟩ <;> simp [holding]
  | joining request point => exact stepJoin_balanced moved
  | streaming p offset point => exact stepStream_balanced moved
  | fetching request p total alive point => exact stepFetch_balanced moved
  | releasing p amWriter point => exact stepRelease_balanced moved

/-- A broadcast moves sleepers of its entry, and nobody else. -/
theorem rouse_cases (broadcast : Option Ptr) (pc : Pc) :
    (∃ p offset, broadcast = some p ∧ pc = .streaming p offset .wait ∧
      rouse broadcast pc = .streaming p offset .lockEntry) ∨
    (rouse broadcast pc = pc ∧
      ∀ p offset, pc = .streaming p offset .wait → broadcast ≠ some p) := by
  cases broadcast with
  | none => exact .inr ⟨rfl, fun _ _ _ => by simp⟩
  | some p =>
      simp only [rouse]
      unfold wake
      split
      · rename_i q offset
        by_cases same : q = p
        · subst same
          exact .inl ⟨q, offset, rfl, rfl, if_pos rfl⟩
        · refine .inr ⟨if_neg same, fun r _ equal here => same ?_⟩
          obtain ⟨rfl, _⟩ := Pc.streaming.inj equal
          exact (Option.some.inj here).symm
      · rename_i other
        exact .inr ⟨rfl, fun q offset equal => absurd equal (other q offset)⟩

@[simp] theorem holding_rouse (broadcast : Option Ptr) (pc : Pc) :
    holding (rouse broadcast pc) = holding pc := by
  rcases rouse_cases broadcast pc with ⟨p, offset, _, rfl, woken⟩ | ⟨same, _⟩
  · rw [woken]
    rfl
  · rw [same]

namespace World

variable {ι : Type*} [DecidableEq ι] {w next : World ι} {i : ι} {answers : Answers}

/-- A step is an effect whose lock, if it takes one, was free. -/
theorem step_eq_some_iff : w.step (i, answers) = some next ↔
    ∃ effect, advance w.table answers (w.pc i) = some effect ∧
      (∀ l, effect.acquire = some l → w.lock l = none) ∧ next = w.apply i effect := by
  unfold step
  cases advanced : advance w.table answers (w.pc i) with
  | none => simp
  | some effect =>
      cases acquires : effect.acquire with
      | none => simp [acquires, eq_comm]
      | some l => simp [acquires, eq_comm]

@[simp] theorem holding_pcs (effect : Effect) (j : ι) : holding (w.pcs i effect j) =
    if j = i then holding effect.pc else holding (w.pc j) := by
  unfold pcs
  by_cases same : j = i
  · subst same
    simp
  · rw [Function.update_of_ne same, if_neg same, holding_rouse]

/-- A mutex is owned by the worker that is between its lock and its unlock. -/
def Owned (w : World ι) : Prop := ∀ l i, w.lock l = some i ↔ l ∈ holding (w.pc i)

omit [DecidableEq ι] in
theorem Owned.start : (World.start ι).Owned := fun l i => by simp [World.start, holding]

omit [DecidableEq ι] in
/-- Two workers do not hold one lock. -/
theorem Owned.unique (owned : w.Owned) {j : ι} {l : Lock} (one : l ∈ holding (w.pc i))
    (two : l ∈ holding (w.pc j)) : i = j :=
  Option.some.inj (((owned l i).mpr one).symm.trans ((owned l j).mpr two))

theorem Owned.apply (owned : w.Owned) {effect : Effect} (balanced : Balanced (w.pc i) effect)
    (free : ∀ l, effect.acquire = some l → w.lock l = none) : (w.apply i effect).Owned := by
  intro l j
  change w.locks i effect l = some j ↔ l ∈ holding (w.pcs i effect j)
  rw [holding_pcs]
  unfold locks
  by_cases same : j = i
  · subst same
    rw [if_pos rfl, (balanced l).1, ← owned l j]
    by_cases takes : effect.acquire = some l
    · simp [takes]
    · by_cases gives : effect.release = some l <;> simp [takes, gives]
  · rw [if_neg same, ← owned l j]
    by_cases takes : effect.acquire = some l
    · simp [takes, free l takes, Ne.symm same]
    · by_cases gives : effect.release = some l
      · have held := (owned l i).mpr ((balanced l).2 gives)
        simp [takes, gives, held, Ne.symm same]
      · simp [takes, gives]

end World

end OperationSystems.Proxy
