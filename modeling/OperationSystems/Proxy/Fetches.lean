import OperationSystems.Foundation.Tally
import OperationSystems.Proxy.Progress

/-!
# How often the origin is asked

The proxy with an account for each key: how often `connect_to_origin` was called for it,
and how many of its fetches were marked failed and complete. However the clients come,
the origin is asked again for a key only behind a fetch that failed, and never again
behind one that ended complete.
-/

namespace OperationSystems.Proxy

open CStrings Cache SharedRegistry Tally

/-- The key that a writer fetches the answer of, up to the mark. -/
def fetched : Pc → Option CString
  | .fetching request _ _ _ _ => some request.key
  | _ => none

/-- The key of a writer that has called `connect_to_origin` and not marked its entry. -/
def awaited : Pc → Option CString
  | .fetching _ _ _ _ .connect => none
  | .fetching request _ _ _ _ => some request.key
  | _ => none

/-- The key that the next step of a worker calls `connect_to_origin` for. -/
def dialled : Pc → Option CString
  | .fetching request _ _ _ .connect => some request.key
  | _ => none

/-- The key whose entry the next step of a worker marks complete, or failed. -/
def marked (complete : Bool) : Pc → Option CString
  | .fetching request _ _ _ (.mark how) => if how = complete then some request.key else none
  | _ => none

/-- One, for the key in question. -/
def one (key : CString) (found : Option CString) : ℕ := if found = some key then 1 else 0

@[simp] theorem one_none (key : CString) : one key none = 0 := rfl

/-- The proxy and the account of each key. -/
structure FetchAccount (ι : Type*) where
  proxy : World ι
  connects : CString → ℕ
  failed : CString → ℕ
  completed : CString → ℕ

namespace FetchAccount

variable {ι : Type*}

def start (ι : Type*) : FetchAccount ι where
  proxy := World.start ι
  connects := fun _ => 0
  failed := fun _ => 0
  completed := fun _ => 0

def step [DecidableEq ι] (s : FetchAccount ι) (label : ι × Answers) : Option (FetchAccount ι) :=
  (s.proxy.step label).map fun proxy =>
    { proxy := proxy
      connects := fun key => s.connects key + one key (dialled (s.proxy.pc label.1))
      failed := fun key => s.failed key + one key (marked false (s.proxy.pc label.1))
      completed := fun key => s.completed key + one key (marked true (s.proxy.pc label.1)) }

end FetchAccount

/-! ## What one step does to the account -/

/-- A step of a worker calls `connect_to_origin`, marks an entry, or does neither. -/
def Accounts (before after : Pc) : Prop := ∀ key,
  one key (awaited after) + (one key (marked false before) + one key (marked true before)) =
    one key (awaited before) + one key (dialled before)

/-- A writer begins to fetch, and a reader does not. -/
theorem accounts_afterJoin {request : Request} {point : JoinPoint}
    (result : CacheTable × Option (Ptr × Bool)) :
    Accounts (.joining request point) (afterJoin request result).pc := by
  intro key
  rcases result with ⟨t, _ | ⟨p, _ | _⟩⟩
  · rfl
  · rfl
  · rfl

/-- A lookup asks no origin. -/
theorem stepJoin_accounts {t : CacheTable} {request : Request} {answers : Answers}
    {point : JoinPoint} {effect : Effect}
    (moved : stepJoin t request answers point = some effect) :
    Accounts (.joining request point) effect.pc := by
  cases point with
  | search =>
      simp only [stepJoin] at moved
      split at moved
      · cases moved
      · obtain rfl := Option.some.inj moved
        exact accounts_afterJoin _
      · obtain rfl := Option.some.inj moved
        exact fun _ => rfl
  | readFailed p =>
      obtain ⟨e, _, rfl⟩ := Option.map_eq_some_iff.mp moved
      exact fun _ => rfl
  | decide p isFailed =>
      obtain ⟨result, _, rfl⟩ := Option.map_eq_some_iff.mp moved
      exact accounts_afterJoin _
  | _ =>
      obtain rfl := Option.some.inj moved
      exact fun _ => rfl

/-- Nor does a reader. -/
theorem stepStream_accounts {t : CacheTable} {p : Ptr} {offset : Nat} {answers : Answers}
    {point : StreamPoint} {effect : Effect}
    (moved : stepStream t p offset answers point = some effect) :
    Accounts (.streaming p offset point) effect.pc := by
  intro key
  cases point with
  | pass =>
      obtain ⟨e, _, rfl⟩ := Option.map_eq_some_iff.mp moved
      dsimp only
      split
      · rfl
      · rfl
      · rfl
      · split <;> rfl
  | send left =>
      obtain rfl := Option.some.inj moved
      dsimp only
      split <;> rfl
  | _ =>
      obtain rfl := Option.some.inj moved
      rfl

/-- A writer asks once and marks once. -/
theorem stepFetch_accounts {t : CacheTable} {request : Request} {p : Ptr} {total : Nat}
    {alive : Bool} {answers : Answers} {point : FetchPoint} {effect : Effect}
    (moved : stepFetch t request p total alive answers point = some effect) :
    Accounts (.fetching request p total alive point) effect.pc := by
  intro key
  cases point with
  | connect =>
      -- every continuation of the call is behind it
      obtain rfl := Option.some.inj moved
      dsimp only
      split
      · split
        · simp [awaited, dialled, marked]
        · simp [awaited, dialled, marked]
      · simp [awaited, dialled, marked]
  | badGateway left =>
      obtain rfl := Option.some.inj moved
      dsimp only
      split <;> rfl
  | sendRequest left =>
      obtain rfl := Option.some.inj moved
      dsimp only
      split <;> rfl
  | recv =>
      simp only [stepFetch] at moved
      split at moved
      · obtain rfl := Option.some.inj moved
        rfl
      · obtain rfl := Option.some.inj moved
        rfl
      · obtain rfl := Option.some.inj moved
        rfl
      · obtain rfl := Option.some.inj moved
        rfl
      · obtain ⟨block, _, rfl⟩ := Option.map_eq_some_iff.mp moved
        rfl
  | append block =>
      obtain ⟨e, _, rfl⟩ := Option.map_eq_some_iff.mp moved
      dsimp only
      split
      · rfl
      · split <;> rfl
  | relay left =>
      obtain rfl := Option.some.inj moved
      dsimp only
      split <;> rfl
  | mark complete =>
      obtain ⟨e, _, rfl⟩ := Option.map_eq_some_iff.mp moved
      cases complete with
      | true => simp [awaited, dialled, marked]
      | false => simp [awaited, dialled, marked]
  | _ =>
      obtain rfl := Option.some.inj moved
      rfl

/-- A release asks nothing and marks nothing. -/
theorem stepRelease_accounts {t : CacheTable} {p : Ptr} {amWriter : Bool}
    {point : ReleasePoint} {effect : Effect}
    (moved : stepRelease t p amWriter point = some effect) :
    Accounts (.releasing p amWriter point) effect.pc := by
  intro key
  cases point with
  | decrement =>
      obtain ⟨e, _, rfl⟩ := Option.map_eq_some_iff.mp moved
      split_ifs <;> rfl
  | readFlags =>
      obtain ⟨e, _, rfl⟩ := Option.map_eq_some_iff.mp moved
      rfl
  | decide keep =>
      cases keep with
      | true =>
          obtain rfl := Option.some.inj moved
          rfl
      | false =>
          obtain ⟨e, _, moved⟩ := Option.bind_eq_some_iff.mp moved
          obtain ⟨t', _, rfl⟩ := Option.map_eq_some_iff.mp moved
          rfl
  | _ =>
      obtain rfl := Option.some.inj moved
      rfl

/-- **One step** accounts for what it asks and marks. -/
theorem advance_accounts {t : CacheTable} {answers : Answers} {pc : Pc} {effect : Effect}
    (moved : advance t answers pc = some effect) : Accounts pc effect.pc := by
  cases pc with
  | idle =>
      obtain rfl := Option.some.inj moved
      exact fun _ => rfl
  | reading buf =>
      rcases stepRead_cases moved with rfl | ⟨more, rfl⟩ | ⟨request, rfl⟩
      · exact fun _ => rfl
      · exact fun _ => rfl
      · exact fun _ => rfl
  | joining request point => exact stepJoin_accounts moved
  | streaming p offset point => exact stepStream_accounts moved
  | fetching request p total alive point => exact stepFetch_accounts moved
  | releasing p amWriter point => exact stepRelease_accounts moved

/-- Who is woken awaits no origin. -/
theorem awaited_rouse (broadcast : Option Ptr) (pc : Pc) :
    awaited (rouse broadcast pc) = awaited pc := by
  rcases rouse_cases broadcast pc with ⟨p, offset, _, rfl, woken⟩ | ⟨same, _⟩
  · rw [woken]
    rfl
  · rw [same]

namespace World

variable {ι : Type*} {w : World ι} {i : ι}

/-- The entry of a worker that fetches has the key, and the worker is its writer. -/
theorem Local.of_fetched (here : w.Local) {key : CString} (fetches : fetched (w.pc i) = some key) :
    ∃ p, (w.view.role i = .producer p ∨ w.view.role i = .quitter p) ∧
      w.view.keyOf p = some key := by
  have known := here.asserts i
  cases place : w.pc i with
  | fetching request p total alive point =>
      rw [place] at fetches known
      obtain ⟨e, found, named⟩ := known
      refine ⟨p, ?_, ?_⟩
      · change role (w.pc i) = _ ∨ role (w.pc i) = _
        rw [place]
        exact role_fetching request p total alive point
      · rw [State.keyOf, view_item found]
        exact (congrArg some named).trans fetches
  | _ =>
      rw [place] at fetches
      cases fetches

variable [Fintype ι]

/-- The workers that have asked the origin for this key and not marked the entry. -/
def awaiting (w : World ι) (key : CString) : Finset ι :=
  Finset.univ.filter fun i => awaited (w.pc i) = some key

/-- The workers that fetch the answer of this key. -/
def fetching (w : World ι) (key : CString) : Finset ι :=
  Finset.univ.filter fun i => fetched (w.pc i) = some key

theorem card_awaiting (w : World ι) (key : CString) :
    (w.awaiting key).card = tally (fun pc => one key (awaited pc)) w.pc :=
  Finset.card_filter ..

/-- Of one key there is one fetch at a time. -/
theorem Local.card_fetching_le_one (here : w.Local) (sound : Sound w.view) (key : CString) :
    (w.fetching key).card ≤ 1 := by
  refine Finset.card_le_one.mpr fun i first j second => ?_
  obtain ⟨p, one, keyed⟩ := here.of_fetched (Finset.mem_filter.mp first).2
  obtain ⟨q, two, keyed'⟩ := here.of_fetched (Finset.mem_filter.mp second).2
  have writes : ∀ {k : ι} {r : Ptr}, (w.view.role k = .producer r ∨ w.view.role k = .quitter r) →
      (w.view.role k).writes = some r := by
    rintro k r (was | was) <;> rw [was] <;> rfl
  exact sound.writers_apart (writes one) (writes two) (keyed.trans keyed'.symm)

/-- Nobody fetches the answer of a key that has a good entry. -/
theorem Local.fetching_eq_empty (here : w.Local) (sound : Sound w.view) {key : CString} {p : Ptr}
    (good : Good w.view p key) : w.fetching key = ∅ := by
  refine Finset.filter_eq_empty_iff.mpr fun i _ fetches => ?_
  obtain ⟨member, it, found, named, complete, _⟩ := good
  obtain ⟨q, works, keyed⟩ := here.of_fetched fetches
  have held : (w.view.role i).held = some q := by
    rcases works with was | was <;> rw [was] <;> rfl
  have same : q = p := sound.listing.key_injective (sound.listing.held_listed i q held) member
    (by rw [keyed, State.keyOf, found, Option.map_some, named])
  subst same
  have unmarked : it.complete = false := by
    rcases works with was | was
    · exact (sound.marking.producer_clean i q it was found).1
    · exact sound.marking.quitter_clean i q it was found
  exact absurd (unmarked.symm.trans complete) (by decide)

/-- One worker's step exchanges its own part of the count. -/
theorem card_awaiting_apply [DecidableEq ι] (w : World ι) (i : ι) (effect : Effect)
    (key : CString) :
    ((w.apply i effect).awaiting key).card + one key (awaited (w.pc i)) =
      (w.awaiting key).card + one key (awaited effect.pc) := by
  have moved := tally_update (fun pc => one key (awaited pc))
    (fun j => rouse effect.broadcast (w.pc j)) i effect.pc
  have others : tally (fun pc => one key (awaited pc)) (fun j => rouse effect.broadcast (w.pc j)) =
      tally (fun pc => one key (awaited pc)) w.pc := by
    simp only [tally, awaited_rouse]
  rw [others, awaited_rouse] at moved
  rw [card_awaiting, card_awaiting]
  exact moved

end World

/-! ## The account along a run -/

namespace FetchAccount

variable {ι : Type*} [Fintype ι] {s next : FetchAccount ι} {i : ι} {answers : Answers}

/-- The account is balanced, and a key whose fetch ended complete has a good entry. -/
structure Booked (s : FetchAccount ι) : Prop where
  here : s.proxy.Local
  sound : Sound s.proxy.view
  balance : ∀ key,
    s.connects key = s.failed key + s.completed key + (s.proxy.awaiting key).card
  kept : ∀ key, s.completed key = 0 ∨
    (s.completed key = 1 ∧ ∃ p, Good s.proxy.view p key)

theorem Booked.start : (start ι).Booked where
  here := .start
  sound := World.sound_start
  balance := fun key => by
    have nobody : (World.start ι).awaiting key = ∅ :=
      Finset.filter_eq_empty_iff.mpr fun _ _ waits => by cases waits
    simp [FetchAccount.start, nobody]
  kept := fun _ => .inl rfl

/-- A key is complete once, or it is fetched by one worker. -/
theorem Booked.completed_le (booked : s.Booked) (key : CString) :
    s.completed key + (s.proxy.fetching key).card ≤ 1 := by
  rcases booked.kept key with none | ⟨once, p, good⟩
  · rw [none, zero_add]
    exact booked.here.card_fetching_le_one booked.sound key
  · rw [once, booked.here.fetching_eq_empty booked.sound good]
    rfl

variable [DecidableEq ι]

/-- A worker at a mark fetches its key. -/
theorem fetched_of_marked {pc : Pc} {key : CString} {complete : Bool}
    (marks : marked complete pc = some key) : fetched pc = some key := by
  unfold marked at marks
  split at marks
  · split_ifs at marks
    exact marks
  · cases marks

/-- **Every step keeps the account.** -/
theorem Booked.step (booked : s.Booked) (stepped : s.step (i, answers) = some next) :
    next.Booked := by
  obtain ⟨proxy, walked, rfl⟩ := Option.map_eq_some_iff.mp stepped
  obtain ⟨here, sound⟩ := booked.here.step_sound booked.sound walked
  refine ⟨here, sound, fun key => ?_, fun key => ?_⟩
  · obtain ⟨effect, moved, _, rfl⟩ := World.step_eq_some_iff.mp walked
    have turned := advance_accounts moved key
    have counted := s.proxy.card_awaiting_apply i effect key
    have before := booked.balance key
    dsimp only
    omega
  · by_cases marks : marked true (s.proxy.pc i) = some key
    · -- no earlier fetch of this key has ended complete
      have first : s.completed key = 0 := by
        rcases booked.kept key with none | ⟨_, p, good⟩
        · exact none
        · have nobody := booked.here.fetching_eq_empty booked.sound good
          exact absurd (fetched_of_marked marks) (Finset.filter_eq_empty_iff.mp nobody
            (Finset.mem_univ i))
      refine .inr ⟨by simp [first, one, marks], ?_⟩
      cases place : s.proxy.pc i with
      | fetching request p total alive point =>
          cases point with
          | mark complete =>
              rw [place, marked] at marks
              split_ifs at marks with done
              subst done
              exact ⟨p, Option.some.inj marks ▸ booked.here.good_of_mark booked.sound place walked⟩
          | _ => rw [place] at marks; cases marks
      | _ => rw [place] at marks; cases marks
    · have same : one key (marked true (s.proxy.pc i)) = 0 := if_neg marks
      rcases booked.kept key with none | ⟨once, p, good⟩
      · exact .inl (by simp [none, same])
      · exact .inr ⟨by simp [once, same], p, booked.here.good_step booked.sound walked good⟩

/-- **The run lemma.** The account balances in every reachable state. -/
theorem booked_of_reaches (reached : Transition.Reaches step (start ι) s) : s.Booked :=
  reached.invariant (motive := Booked) .start
    fun _ _ _ booked _ stepped => booked.step stepped

/-- Behind a complete fetch of a key no step asks the origin for it. -/
theorem Booked.step_silent (booked : s.Booked) {key : CString} (done : s.completed key = 1)
    (stepped : s.step (i, answers) = some next) :
    next.completed key = 1 ∧ next.connects key = s.connects key := by
  have nobody : fetched (s.proxy.pc i) ≠ some key := by
    have none : (s.proxy.fetching key).card = 0 := by
      have bound := booked.completed_le key
      omega
    exact Finset.filter_eq_empty_iff.mp (Finset.card_eq_zero.mp none) (Finset.mem_univ i)
  obtain ⟨proxy, walked, rfl⟩ := Option.map_eq_some_iff.mp stepped
  have unmarked : marked true (s.proxy.pc i) ≠ some key := fun marks =>
    nobody (fetched_of_marked marks)
  have undialled : dialled (s.proxy.pc i) ≠ some key := by
    intro dials
    apply nobody
    unfold dialled at dials
    split at dials
    · next place => rw [place]; exact dials
    · cases dials
  exact ⟨by simp [one, done, unmarked], by simp [one, undialled]⟩

/-- **The origin is asked again only after a failure.** In every reachable state and for
every key, `connect_to_origin` was called once for each fetch that was marked and for the
one under way, at most one fetch is complete or under way, and once a fetch has ended
complete the origin is never asked for this key again. -/
theorem asked_again_after_failure (reached : Transition.Reaches step (start ι) s) (key : CString) :
    s.connects key = s.failed key + s.completed key + (s.proxy.awaiting key).card ∧
    s.completed key + (s.proxy.fetching key).card ≤ 1 ∧
    (s.completed key = 1 → ∀ later, Transition.Reaches step s later →
      later.connects key = s.connects key) := by
  have booked := booked_of_reaches reached
  refine ⟨booked.balance key, booked.completed_le key, fun done later onward => ?_⟩
  have silent : later.Booked ∧ later.completed key = 1 ∧ later.connects key = s.connects key := by
    refine onward.invariant (motive := fun v : FetchAccount ι => v.Booked ∧ v.completed key = 1 ∧
      v.connects key = s.connects key) ⟨booked, done, rfl⟩ ?_
    rintro v ⟨j, answers⟩ after ⟨booked, done, same⟩ _ stepped
    obtain ⟨still, again⟩ := booked.step_silent done stepped
    exact ⟨booked.step stepped, still, again.trans same⟩
  exact silent.2.2

/-- The theorem at a fetch that failed, one behind it that ended complete, and a client
that comes for the same key after both. -/
theorem asked_again_after_failure_run : ∃ s later : FetchAccount Bool,
    Transition.Reaches step (start Bool) s ∧ Transition.Reaches step s later ∧
      s.connects sampleRequest.key = 2 ∧ s.failed sampleRequest.key = 1 ∧
      s.completed sampleRequest.key = 1 ∧ later.proxy.pc false = .streaming 1 0 .lockEntry ∧
      later.connects sampleRequest.key = 2 := by
  have places : ((Transition.run step (start Bool) (List.replicate 19 (true, refusal) ++
      List.replicate 11 (true, closing))).bind fun s =>
        (Transition.run step s (List.replicate 8 (false, refusal))).map fun later =>
          (s.connects sampleRequest.key, s.failed sampleRequest.key,
            s.completed sampleRequest.key, later.proxy.pc false)) =
      some (2, 1, 1, .streaming 1 0 .lockEntry) := by decide +kernel
  obtain ⟨s, ran, places⟩ := Option.bind_eq_some_iff.mp places
  obtain ⟨later, ran', places⟩ := Option.map_eq_some_iff.mp places
  simp only [Prod.mk.injEq] at places
  obtain ⟨calls, failures, complete, place⟩ := places
  have reached : Transition.Reaches step (start Bool) s := .of_run ran .start
  have onward : Transition.Reaches step s later := .of_run ran' .start
  have same := (asked_again_after_failure reached sampleRequest.key).2.2 complete later onward
  exact ⟨s, later, reached, onward, calls, failures, complete, place, same.trans calls⟩

end FetchAccount

end OperationSystems.Proxy
