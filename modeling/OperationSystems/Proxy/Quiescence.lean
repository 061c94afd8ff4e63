import OperationSystems.Foundation.Tally
import OperationSystems.Proxy.Progress

/-!
# The handlers come to rest

When every socket has hung up, each step of a handler lowers the work that is left,
counting a broadcast for the sleepers it wakes. Some handler that neither sleeps nor
waits for a taken lock can always take a step, so the handlers come to rest without
any wake-up that nobody has sent.
-/

namespace OperationSystems.Proxy

open CStrings Cache SharedRegistry Tally

/-- The steps to the end of `cache_start_or_join`, and through the entry behind it. -/
def JoinPoint.work : JoinPoint → ℕ
  | .lockTable => 16
  | .search => 15
  | .lockEntry _ => 14
  | .readFailed _ => 13
  | .decide _ _ => 12
  | .logHit _ => 11

/-- The steps of a reader to its return. A sleeper has to be woken. -/
def StreamPoint.work : StreamPoint → ℕ
  | .lockEntry => 10
  | .pass => 9
  | .wait => 8
  | .send _ => 8

/-- The steps of a writer to its return, with two for each of `n` sleepers that a broadcast
may wake. -/
def FetchPoint.work (n : ℕ) : FetchPoint → ℕ
  | .connect => 11 + 2 * n
  | .badGateway _ => 10 + 2 * n
  | .sendRequest _ => 10 + 2 * n
  | .recv => 10 + 2 * n
  | .lockAppend _ => 13 + 4 * n
  | .append _ => 12 + 4 * n
  | .relay _ => 11 + 2 * n
  | .lockMark _ => 9 + 2 * n
  | .mark _ => 8 + 2 * n

/-- The steps to the end of `cache_release`. -/
def ReleasePoint.work : ReleasePoint → ℕ
  | .lockTable => 7
  | .decrement => 6
  | .lockEntry => 5
  | .readFlags => 4
  | .decide _ => 3
  | .logFreed => 2
  | .logCount => 1
  | .logKeep => 1
  | .destroy => 1

/-- The steps of a handler to its return, once the sockets have hung up. -/
def Pc.work (n : ℕ) : Pc → ℕ
  | .idle => 0
  | .reading _ => 17
  | .joining _ point => point.work
  | .streaming _ _ point => point.work
  | .fetching _ _ _ _ point => point.work n
  | .releasing _ _ point => point.work

/-- Every socket has hung up, and there is no memory for a new entry. -/
structure HungUp (answers : Answers) : Prop where
  recv : answers.recv = .closed
  send : answers.send = .failed
  create : answers.create.calloc = false

/-- What a broadcast is worth. -/
def Effect.loud (n : ℕ) (effect : Effect) : ℕ := if effect.broadcast = none then 0 else 2 * n

/-- A broadcast makes no more work than for all workers. -/
theorem Effect.loud_le (n : ℕ) (effect : Effect) : effect.loud n ≤ 2 * n := by
  unfold Effect.loud
  split_ifs <;> omega

/-- A writer whose origin has hung up comes closer to its return. -/
theorem stepFetch_work_lt {t : CacheTable} {request : Request} {p : Ptr} {total : ℕ}
    {alive : Bool} {answers : Answers} {point : FetchPoint} {effect : Effect} (n : ℕ)
    (hung : HungUp answers)
    (moved : stepFetch t request p total alive answers point = some effect) :
    effect.pc.work n + effect.loud n < point.work n := by
  have refused : ∀ left, sendAll left answers.send = .error := fun left => by rw [hung.send]; rfl
  cases point with
  | connect =>
      obtain rfl := Option.some.inj moved
      cases answers.connect with
      | false => simp [Pc.work, FetchPoint.work, Effect.loud]
      | true =>
          cases request.originRequest with
          | none => simp [Pc.work, FetchPoint.work, Effect.loud]
          | some req => simp [Pc.work, FetchPoint.work, Effect.loud]
  | badGateway left =>
      obtain rfl := Option.some.inj moved
      simp [refused, Pc.work, FetchPoint.work, Effect.loud]
  | sendRequest left =>
      obtain rfl := Option.some.inj moved
      simp [refused, Pc.work, FetchPoint.work, Effect.loud]
  | recv =>
      simp only [stepFetch, hung.recv] at moved
      obtain rfl := Option.some.inj moved
      simp [Pc.work, FetchPoint.work, Effect.loud]
  | lockAppend block =>
      obtain rfl := Option.some.inj moved
      simp [Pc.work, FetchPoint.work, Effect.loud]
  | append block =>
      obtain ⟨e, found, rfl⟩ := Option.map_eq_some_iff.mp moved
      refine lt_of_le_of_lt (Nat.add_le_add_left (Effect.loud_le n _) _) ?_
      dsimp only
      split_ifs <;> simp only [Pc.work, FetchPoint.work] <;> omega
  | relay left =>
      obtain rfl := Option.some.inj moved
      simp [refused, Pc.work, FetchPoint.work, Effect.loud]
  | lockMark complete =>
      obtain rfl := Option.some.inj moved
      simp [Pc.work, FetchPoint.work, Effect.loud]
  | mark complete =>
      obtain ⟨e, found, rfl⟩ := Option.map_eq_some_iff.mp moved
      simp [Pc.work, FetchPoint.work, ReleasePoint.work, Effect.loud]

/-- A release comes closer to its end. -/
theorem stepRelease_work_lt {t : CacheTable} {p : Ptr} {amWriter : Bool} {point : ReleasePoint}
    {effect : Effect} (n : ℕ) (moved : stepRelease t p amWriter point = some effect) :
    effect.pc.work n + effect.loud n < point.work := by
  cases point with
  | decrement =>
      obtain ⟨e, found, rfl⟩ := Option.map_eq_some_iff.mp moved
      split_ifs <;> simp [Pc.work, ReleasePoint.work, Effect.loud]
  | readFlags =>
      obtain ⟨e, found, rfl⟩ := Option.map_eq_some_iff.mp moved
      simp [Pc.work, ReleasePoint.work, Effect.loud]
  | decide keep =>
      cases keep with
      | true =>
          obtain rfl := Option.some.inj moved
          simp [Pc.work, ReleasePoint.work, Effect.loud]
      | false =>
          obtain ⟨e, found, moved⟩ := Option.bind_eq_some_iff.mp moved
          obtain ⟨t', unlinked, rfl⟩ := Option.map_eq_some_iff.mp moved
          simp [Pc.work, ReleasePoint.work, Effect.loud]
  | _ =>
      obtain rfl := Option.some.inj moved
      simp [Pc.work, ReleasePoint.work, Effect.loud]

/-- A reader comes closer to its return, unless it sleeps. -/
theorem stepStream_work_lt {t : CacheTable} {p : Ptr} {offset : ℕ} {answers : Answers}
    {point : StreamPoint} {effect : Effect} (n : ℕ) (hung : HungUp answers)
    (awake : point ≠ .wait) (inside : ∀ e, t.heap p = some e → offset ≤ e.size)
    (moved : stepStream t p offset answers point = some effect) :
    effect.pc.work n + effect.loud n < point.work := by
  cases point with
  | lockEntry =>
      obtain rfl := Option.some.inj moved
      simp [Pc.work, StreamPoint.work, Effect.loud]
  | pass =>
      obtain ⟨e, found, rfl⟩ := Option.map_eq_some_iff.mp moved
      dsimp only
      cases passed : streamPass e offset with
      | wait => simp [Pc.work, StreamPoint.work, Effect.loud]
      | failed => simp [Pc.work, StreamPoint.work, ReleasePoint.work, Effect.loud]
      | finished => simp [Pc.work, StreamPoint.work, ReleasePoint.work, Effect.loud]
      | copied chunk next =>
          obtain ⟨text, room, more⟩ := streamPass_copied (inside e found) passed
          -- a chunk that is copied is not empty
          have some : chunk ≠ [] := by
            rintro rfl
            have lengths := congrArg List.length text
            have whole := e.length_stored
            rw [List.append_nil, List.length_take, List.length_take, whole] at lengths
            omega
          simp [sendAllStart, some, Pc.work, StreamPoint.work, Effect.loud]
  | wait => exact absurd rfl awake
  | send left =>
      obtain rfl := Option.some.inj moved
      simp [hung.send, sendAll, Pc.work, StreamPoint.work, ReleasePoint.work, Effect.loud]

/-- A writer does not become a reader. -/
theorem stepFetch_not_streaming {t : CacheTable} {request : Request} {p q : Ptr}
    {total offset : ℕ} {alive : Bool} {answers : Answers} {point : FetchPoint} {effect : Effect}
    {spot : StreamPoint} (moved : stepFetch t request p total alive answers point = some effect)
    (place : effect.pc = .streaming q offset spot) : False := by
  cases point with
  | recv =>
      simp only [stepFetch] at moved
      split at moved
      · exact Pc.noConfusion (Option.some.inj moved ▸ place)
      · exact Pc.noConfusion (Option.some.inj moved ▸ place)
      · exact Pc.noConfusion (Option.some.inj moved ▸ place)
      · exact Pc.noConfusion (Option.some.inj moved ▸ place)
      · obtain ⟨block, _, rfl⟩ := Option.map_eq_some_iff.mp moved
        cases place
  | append block =>
      obtain ⟨e, _, rfl⟩ := Option.map_eq_some_iff.mp moved
      cases place
  | relay left =>
      obtain rfl := Option.some.inj moved
      dsimp only at place
      split at place <;> cases place
  | mark complete =>
      obtain ⟨e, _, rfl⟩ := Option.map_eq_some_iff.mp moved
      cases place
  | _ =>
      obtain rfl := Option.some.inj moved
      cases place

/-- No release leads to a reader. -/
theorem stepRelease_not_streaming {t : CacheTable} {p q : Ptr} {amWriter : Bool} {offset : ℕ}
    {point : ReleasePoint} {effect : Effect} {spot : StreamPoint}
    (moved : stepRelease t p amWriter point = some effect)
    (place : effect.pc = .streaming q offset spot) : False := by
  cases point with
  | decrement =>
      obtain ⟨e, _, rfl⟩ := Option.map_eq_some_iff.mp moved
      split_ifs at place
  | readFlags =>
      obtain ⟨e, _, rfl⟩ := Option.map_eq_some_iff.mp moved
      cases place
  | decide keep =>
      cases keep with
      | true =>
          obtain rfl := Option.some.inj moved
          cases place
      | false =>
          obtain ⟨e, _, moved⟩ := Option.bind_eq_some_iff.mp moved
          obtain ⟨t', _, rfl⟩ := Option.map_eq_some_iff.mp moved
          cases place
  | _ =>
      obtain rfl := Option.some.inj moved
      cases place

/-- A reader that comes out of `cache_start_or_join` begins at the offset 0. -/
theorem stepJoin_streaming {t : CacheTable} {request : Request} {answers : Answers}
    {point : JoinPoint} {effect : Effect} {p : Ptr} {offset : ℕ} {spot : StreamPoint}
    (known : Asserts t (.joining request point))
    (moved : stepJoin t request answers point = some effect)
    (place : effect.pc = .streaming p offset spot) :
    effect.table = t ∧ ∃ e, t.heap p = some e ∧ offset ≤ e.size := by
  have joined : ∀ result, (afterJoin request result).pc = .streaming p offset spot → False := by
    rintro ⟨t', _ | ⟨q, _ | _⟩⟩ there <;> cases there
  cases point with
  | search =>
      simp only [stepJoin] at moved
      split at moved
      · cases moved
      · obtain rfl := Option.some.inj moved
        exact (joined _ place).elim
      · obtain rfl := Option.some.inj moved
        cases place
  | readFailed q =>
      obtain ⟨e, found, rfl⟩ := Option.map_eq_some_iff.mp moved
      cases place
  | decide q isFailed =>
      obtain ⟨result, decided, rfl⟩ := Option.map_eq_some_iff.mp moved
      exact (joined _ place).elim
  | logHit q =>
      obtain ⟨e, found, _⟩ := known
      obtain rfl := Option.some.inj moved
      obtain ⟨rfl, rfl, rfl⟩ := Pc.streaming.inj place
      exact ⟨rfl, e, found, Nat.zero_le _⟩
  | lockTable =>
      obtain rfl := Option.some.inj moved
      cases place
  | lockEntry q =>
      obtain rfl := Option.some.inj moved
      cases place

/-- A step of a reader leaves its offset inside the entry. -/
theorem stepStream_streaming {t : CacheTable} {q p : Ptr} {before offset : ℕ} {answers : Answers}
    {point spot : StreamPoint} {effect : Effect} {e : CacheEntry} (found : t.heap q = some e)
    (inside : before ≤ e.size) (moved : stepStream t q before answers point = some effect)
    (place : effect.pc = .streaming p offset spot) :
    effect.table = t ∧ ∃ e, t.heap p = some e ∧ offset ≤ e.size := by
  cases point with
  | lockEntry =>
      obtain rfl := Option.some.inj moved
      obtain ⟨rfl, rfl, rfl⟩ := Pc.streaming.inj place
      exact ⟨rfl, e, found, inside⟩
  | pass =>
      obtain ⟨old, there, rfl⟩ := Option.map_eq_some_iff.mp moved
      obtain rfl := Option.some.inj (found.symm.trans there)
      refine ⟨rfl, ?_⟩
      dsimp only at place
      cases passed : streamPass e before with
      | wait =>
          rw [passed] at place
          obtain ⟨rfl, rfl, rfl⟩ := Pc.streaming.inj place
          exact ⟨e, found, inside⟩
      | failed =>
          rw [passed] at place
          cases place
      | finished =>
          rw [passed] at place
          cases place
      | copied chunk next =>
          obtain ⟨_, room, _⟩ := streamPass_copied inside passed
          simp only [passed, sendAllStart] at place
          split_ifs at place with empty
          · obtain ⟨rfl, rfl, rfl⟩ := Pc.streaming.inj place
            exact ⟨e, found, room⟩
          · obtain ⟨rfl, rfl, rfl⟩ := Pc.streaming.inj place
            exact ⟨e, found, room⟩
  | wait =>
      obtain rfl := Option.some.inj moved
      obtain ⟨rfl, rfl, rfl⟩ := Pc.streaming.inj place
      exact ⟨rfl, e, found, inside⟩
  | send left =>
      obtain rfl := Option.some.inj moved
      refine ⟨rfl, ?_⟩
      dsimp only at place
      cases result : sendAll left answers.send with
      | sending rest =>
          rw [result] at place
          obtain ⟨rfl, rfl, rfl⟩ := Pc.streaming.inj place
          exact ⟨e, found, inside⟩
      | returned =>
          rw [result] at place
          obtain ⟨rfl, rfl, rfl⟩ := Pc.streaming.inj place
          exact ⟨e, found, inside⟩
      | error =>
          rw [result] at place
          cases place

namespace World

variable {ι : Type*} {w next : World ι} {i : ι} {answers : Answers}

/-- A reader's offset lies inside its entry. -/
def Within (w : World ι) : Prop := ∀ i p offset point, w.pc i = .streaming p offset point →
  ∃ e, w.table.heap p = some e ∧ offset ≤ e.size

/-- Nobody reads yet. -/
theorem Within.start : (World.start ι).Within := fun _ _ _ _ place => by cases place

/-- What a step of a worker leaves of its own offset. -/
theorem Within.after (within : w.Within) (here : w.Local) {effect : Effect}
    (moved : advance w.table answers (w.pc i) = some effect) {p : Ptr} {offset : ℕ}
    {point : StreamPoint} (place : effect.pc = .streaming p offset point) :
    effect.table = w.table ∧ ∃ e, w.table.heap p = some e ∧ offset ≤ e.size := by
  cases was : w.pc i with
  | idle =>
      rw [was] at moved
      obtain rfl := Option.some.inj moved
      cases place
  | reading buf =>
      rw [was] at moved
      rcases stepRead_cases moved with rfl | ⟨more, rfl⟩ | ⟨request, rfl⟩ <;> cases place
  | joining request spot =>
      have known := here.asserts i
      rw [was] at moved known
      exact stepJoin_streaming known moved place
  | streaming q before spot =>
      obtain ⟨e, found, inside⟩ := within i q before spot was
      rw [was] at moved
      exact stepStream_streaming found inside moved place
  | fetching request q total alive spot =>
      rw [was] at moved
      exact (stepFetch_not_streaming moved place).elim
  | releasing q amWriter spot =>
      rw [was] at moved
      exact (stepRelease_not_streaming moved place).elim

variable [Fintype ι] [DecidableEq ι]

/-- **The step lemma.** No reader passes the end. -/
theorem Within.step (within : w.Within) (here : w.Local) (sound : Sound w.view)
    (stepped : w.step (i, answers) = some next) : next.Within := by
  obtain ⟨effect, moved, _, rfl⟩ := step_eq_some_iff.mp stepped
  intro j p offset point place
  by_cases same : j = i
  · subst same
    rw [apply_pc_self] at place
    obtain ⟨still, inside⟩ := within.after here moved place
    change ∃ e, effect.table.heap p = some e ∧ offset ≤ e.size
    rw [still]
    exact inside
  · rw [apply_pc_of_ne w effect same] at place
    have was : ∃ spot, w.pc j = .streaming p offset spot := by
      rcases rouse_cases effect.broadcast (w.pc j) with ⟨q, before, _, sleeps, woken⟩ | ⟨kept, _⟩
      · rw [woken] at place
        obtain ⟨rfl, rfl, _⟩ := Pc.streaming.inj place
        exact ⟨_, sleeps⟩
      · exact ⟨point, kept ▸ place⟩
    obtain ⟨spot, was⟩ := was
    obtain ⟨e, found, inside⟩ := within j p offset spot was
    have kept : Preserves w.table effect p := by
      refine (advance_touches moved).preserves here.linked.bounded fun frees => ?_
      exact here.not_concerns_of_destroys sound frees j (.inl (by rw [was]; rfl))
    obtain ⟨f, there, evolves⟩ := kept e found
    exact ⟨f, there, inside.trans evolves.size_le⟩

/-- **The run lemma.** No reader is ever past the end of what is stored. -/
theorem within_of_reaches (reached : Transition.Reaches step (World.start ι) w) : w.Within := by
  refine (reached.invariant (motive := fun w : World ι => (w.Local ∧ Sound w.view) ∧ w.Within)
    ⟨⟨.start, sound_start⟩, .start⟩ ?_).2
  rintro v ⟨i, answers⟩ next ⟨⟨here, sound⟩, within⟩ _ stepped
  exact ⟨here.step_sound sound stepped, within.step here sound stepped⟩

omit [DecidableEq ι] in
/-- **A step of a handler lowers its work** by more than a broadcast is worth, once the
sockets have hung up. -/
theorem Within.work_lt (within : w.Within) (here : w.Local) (sound : Sound w.view) (n : ℕ)
    (hung : HungUp answers) (inside : w.pc i ≠ .idle) (awake : ¬ Asleep (w.pc i))
    {effect : Effect} (moved : advance w.table answers (w.pc i) = some effect) :
    effect.pc.work n + effect.loud n < (w.pc i).work n := by
  cases place : w.pc i with
  | idle => exact absurd place inside
  | reading buf =>
      rw [place] at moved
      simp only [advance, stepRead, hung.recv, receive] at moved
      obtain rfl := Option.some.inj moved
      simp [Pc.work, Effect.loud]
  | joining request point =>
      rw [place] at moved
      cases point with
      | search =>
          have none : ∀ key, cacheEntryCreate answers.create key = none := fun key => by
            simp [cacheEntryCreate, hung.create]
          simp only [advance, stepJoin] at moved
          split at moved
          · cases moved
          · obtain rfl := Option.some.inj moved
            simp [CacheTable.startNew, none, afterJoin, Pc.work, JoinPoint.work, Effect.loud]
          · obtain rfl := Option.some.inj moved
            simp [Pc.work, JoinPoint.work, Effect.loud]
      | readFailed p =>
          obtain ⟨e, found, rfl⟩ := Option.map_eq_some_iff.mp moved
          simp [Pc.work, JoinPoint.work, Effect.loud]
      | decide p isFailed =>
          obtain ⟨_, _, _, joins⟩ := here.decideFound_eq sound place answers.create
          obtain ⟨result, decided, rfl⟩ := Option.map_eq_some_iff.mp moved
          obtain rfl := Option.some.inj (joins.symm.trans decided)
          simp [afterJoin, Pc.work, JoinPoint.work, Effect.loud]
      | lockTable =>
          obtain rfl := Option.some.inj moved
          simp [Pc.work, JoinPoint.work, Effect.loud]
      | lockEntry p =>
          obtain rfl := Option.some.inj moved
          simp [Pc.work, JoinPoint.work, Effect.loud]
      | logHit p =>
          obtain rfl := Option.some.inj moved
          simp [Pc.work, JoinPoint.work, StreamPoint.work, Effect.loud]
  | streaming p offset point =>
      rw [place] at moved awake
      refine stepStream_work_lt n hung ?_ (fun e found => ?_) moved
      · rintro rfl
        exact awake ⟨p, offset, rfl⟩
      · obtain ⟨f, there, below⟩ := within i p offset point place
        exact Option.some.inj (there.symm.trans found) ▸ below
  | fetching request p total alive point =>
      rw [place] at moved
      exact stepFetch_work_lt n hung moved
  | releasing p amWriter point =>
      rw [place] at moved
      exact stepRelease_work_lt n moved

/-- The work of all handlers. -/
def work (w : World ι) : ℕ := tally (Pc.work (Fintype.card ι)) w.pc

omit [DecidableEq ι] in
/-- A broadcast gives every sleeper two steps to do. -/
theorem tally_rouse_le (effect : Effect) (pc : ι → Pc) :
    tally (Pc.work (Fintype.card ι)) (fun j => rouse effect.broadcast (pc j)) ≤
      tally (Pc.work (Fintype.card ι)) pc + effect.loud (Fintype.card ι) := by
  unfold Effect.loud
  split_ifs with quiet
  · rw [quiet]
    exact le_rfl
  · have each : ∀ j, (rouse effect.broadcast (pc j)).work (Fintype.card ι) ≤
        (pc j).work (Fintype.card ι) + 2 := by
      intro j
      rcases rouse_cases effect.broadcast (pc j) with ⟨p, offset, _, sleeps, woken⟩ | ⟨same, _⟩
      · rw [woken, sleeps]
        exact le_rfl
      · rw [same]
        exact Nat.le_add_right _ _
    calc tally (Pc.work (Fintype.card ι)) (fun j => rouse effect.broadcast (pc j))
        ≤ ∑ j, ((pc j).work (Fintype.card ι) + 2) := Finset.sum_le_sum fun j _ => each j
      _ = tally (Pc.work (Fintype.card ι)) pc + 2 * Fintype.card ι := by
          rw [Finset.sum_add_distrib, Finset.sum_const_nat fun _ _ => rfl, Finset.card_univ,
            Nat.mul_comm]
          rfl

/-- **A handler that is not blocked lowers the work of all.** -/
theorem Within.step_work_lt (within : w.Within) (here : w.Local) (sound : Sound w.view)
    (inside : w.pc i ≠ .idle) (free : ¬ w.Blocked i) (hung : HungUp answers) :
    ∃ next, w.step (i, answers) = some next ∧ next.work < w.work := by
  obtain ⟨effect, moved, wants⟩ := here.advances (i := i) sound hung.recv
  have awake : ¬ Asleep (w.pc i) := fun sleeps => free (.inl sleeps)
  refine ⟨w.apply i effect, step_eq_some_iff.mpr ⟨effect, moved, ?_, rfl⟩, ?_⟩
  · intro l takes
    by_contra taken
    exact free (.inr ⟨l, wants l takes, taken⟩)
  · have less := within.work_lt here sound (Fintype.card ι) hung inside awake moved
    have most := tally_rouse_le effect w.pc
    have turn := tally_update (Pc.work (Fintype.card ι)) (fun k => rouse effect.broadcast (w.pc k))
      i effect.pc
    have still : rouse effect.broadcast (w.pc i) = w.pc i := by
      rcases rouse_cases effect.broadcast (w.pc i) with ⟨p, offset, _, sleeps, _⟩ | ⟨same, _⟩
      · exact absurd ⟨p, offset, sleeps⟩ awake
      · exact same
    rw [still] at turn
    change tally (Pc.work (Fintype.card ι)) (w.pcs i effect) < tally _ w.pc
    unfold pcs
    omega

end World

end OperationSystems.Proxy
