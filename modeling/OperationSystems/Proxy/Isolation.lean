import OperationSystems.Proxy.Quiescence

/-!
# Whom a stalled peer holds up

A handler that waits for a client or for an origin holds no lock. However many of them
wait for ever, all others can go on to their return, but for the readers of an entry
whose writer is among the stalled.
-/

namespace OperationSystems.Proxy

open CStrings Cache SharedRegistry

/-- The handler is about to call `recv`, `send`, `gethostbyname` or `connect`. -/
def AtSocket : Pc → Prop
  | .reading _ => True
  | .streaming _ _ (.send _) => True
  | .fetching _ _ _ _ .connect => True
  | .fetching _ _ _ _ (.badGateway _) => True
  | .fetching _ _ _ _ (.sendRequest _) => True
  | .fetching _ _ _ _ .recv => True
  | .fetching _ _ _ _ (.relay _) => True
  | _ => False

/-- No call of a socket is made inside a lock, or by a sleeper. -/
theorem holding_of_atSocket {pc : Pc} (stalls : AtSocket pc) : holding pc = [] := by
  cases pc with
  | idle => cases stalls
  | reading buf => rfl
  | joining request point => cases stalls
  | streaming p offset point =>
      cases point with
      | send left => rfl
      | _ => cases stalls
  | fetching request p total alive point =>
      cases point with
      | lockAppend block => cases stalls
      | append block => cases stalls
      | lockMark complete => cases stalls
      | mark complete => cases stalls
      | _ => rfl
  | releasing p amWriter point => cases stalls

/-- A broadcast leaves a handler at a socket alone. -/
theorem rouse_of_atSocket {pc : Pc} (stalls : AtSocket pc) (broadcast : Option Ptr) :
    rouse broadcast pc = pc := by
  rcases rouse_cases broadcast pc with ⟨p, offset, _, rfl, _⟩ | ⟨same, _⟩
  · cases stalls
  · exact same

namespace World

variable {ι : Type*} {w next : World ι} {i : ι} {answers : Answers}

/-- The step is that of a handler outside `stalled`, and no wake-up that nobody has sent. -/
def Spares (stalled : Set ι) (w : World ι) (label : ι × Answers) : Prop :=
  label.1 ∉ stalled ∧ ¬ Asleep (w.pc label.1)

/-- The handler has nothing to do, or it sleeps until one of `stalled` goes on. -/
def Served (stalled : Set ι) (w : World ι) (i : ι) : Prop :=
  w.pc i = .idle ∨ ∃ p offset, w.pc i = .streaming p offset .wait ∧
    ∃ j ∈ stalled, ∃ request total alive point, w.pc j = .fetching request p total alive point

variable [Fintype ι] {stalled : Set ι}

/-- Who is not held up by a stalled handler finds somebody who can go on. -/
theorem Local.exists_spared (here : w.Local) (sound : Sound w.view)
    (sockets : ∀ j ∈ stalled, AtSocket (w.pc j)) (out : i ∉ stalled)
    (held : ¬ w.Served stalled i) : ∃ j, j ∉ stalled ∧ w.pc j ≠ .idle ∧ ¬ w.Blocked j := by
  have inside : w.pc i ≠ .idle := fun idle => held (.inl idle)
  have owner_out : ∀ {l j}, w.lock l = some j → j ∉ stalled := by
    intro l j owner member
    have holds := (here.owned l j).mp owner
    rw [holding_of_atSocket (sockets j member)] at holds
    cases holds
  by_cases entries : ∃ p j, w.lock (.entry p) = some j
  · obtain ⟨p, j, owner⟩ := entries
    exact ⟨j, owner_out owner, here.owned.inside owner, here.owned.entry_not_blocked owner⟩
  have free : ∀ p, w.lock (.entry p) = none := fun p =>
    Option.eq_none_iff_forall_ne_some.mpr fun j owner => entries ⟨p, j, owner⟩
  cases table : w.lock .table with
  | some j =>
      exact ⟨j, owner_out table, here.owned.inside table, here.owned.table_not_blocked table free⟩
  | none =>
      have awake : ∀ j, ¬ Asleep (w.pc j) → ¬ w.Blocked j := by
        rintro j awake (asleep | ⟨l, _, taken⟩)
        · exact awake asleep
        · cases l with
          | table => exact taken table
          | entry p => exact taken (free p)
      by_cases asleep : Asleep (w.pc i)
      · obtain ⟨p, offset, place⟩ := asleep
        obtain ⟨_, _, _, _, _, j, request, total, alive, point, _, fetches⟩ :=
          here.asleep sound place
        have spared : j ∉ stalled := fun member =>
          held (.inr ⟨p, offset, place, j, member, request, total, alive, point, fetches⟩)
        refine ⟨j, spared, by rw [fetches]; simp, awake j ?_⟩
        rintro ⟨q, other, sleeps⟩
        rw [fetches] at sleeps
        cases sleeps
      · exact ⟨i, out, inside, awake i asleep⟩

variable [DecidableEq ι]

/-- **A stalled peer holds up its own client, and who reads what it has not sent.** Take any
reachable state and any handlers in it that wait for a client or for an origin. If none of
these takes a step any more, all others can still come to their return without a wake-up that
nobody has sent, except for readers asleep on an entry whose writer is one of the stalled. -/
theorem stalled_hold_up_their_readers (reached : Transition.Reaches step (World.start ι) w)
    (sockets : ∀ i ∈ stalled, AtSocket (w.pc i)) :
    ∃ final, Transition.ReachesBy step (Spares stalled) w final ∧
      (∀ i ∈ stalled, final.pc i = w.pc i) ∧ ∀ i, i ∉ stalled → final.Served stalled i := by
  obtain ⟨here, sound⟩ := sound_of_reaches reached
  have within := within_of_reaches reached
  obtain ⟨final, ran, ⟨_, _, _, same⟩, served⟩ :
      ∃ final, Transition.ReachesBy step (Spares stalled) w final ∧
        (final.Local ∧ Sound final.view ∧ final.Within ∧ ∀ i ∈ stalled, final.pc i = w.pc i) ∧
        ∀ i, i ∉ stalled → final.Served stalled i :=
    Transition.exists_reachesBy_of_measure
      (fun v => v.Local ∧ Sound v.view ∧ v.Within ∧ ∀ i ∈ stalled, v.pc i = w.pc i)
      (fun v => ∀ i, i ∉ stalled → v.Served stalled i) work
      (fun v ⟨here, sound, within, same⟩ unserved => by
        obtain ⟨i, out, held⟩ : ∃ i, i ∉ stalled ∧ ¬ v.Served stalled i := by
          by_contra none
          exact unserved fun i out => by_contra fun held => none ⟨i, out, held⟩
        have still : ∀ j ∈ stalled, AtSocket (v.pc j) := fun j member =>
          (same j member).symm ▸ sockets j member
        obtain ⟨j, spared, busy, free⟩ := here.exists_spared sound still out held
        have hung : HungUp { closing with send := .failed, create := { CreateAnswer.ok with
          calloc := false } } := ⟨rfl, rfl, rfl⟩
        obtain ⟨next, stepped, less⟩ := within.step_work_lt here sound busy free hung
        obtain ⟨here', sound'⟩ := here.step_sound sound stepped
        refine ⟨_, next, ⟨spared, fun sleeps => free (.inl sleeps)⟩, stepped,
          ⟨here', sound', within.step here sound stepped, fun k member => ?_⟩, less⟩
        obtain ⟨effect, _, _, rfl⟩ := step_eq_some_iff.mp stepped
        have other : k ≠ j := by
          rintro rfl
          exact spared member
        rw [apply_pc_of_ne v effect other, rouse_of_atSocket (still k member), same k member])
      ⟨here, sound, within, fun _ _ => rfl⟩
  exact ⟨final, ran, same, served⟩

/-- The theorem where a writer connects to its origin for ever and another client has asked for
the same. -/
theorem stalled_hold_up_their_readers_run : ∃ w final : World Bool,
    Transition.Reaches step (World.start Bool) w ∧ AtSocket (w.pc true) ∧ w.pc false ≠ .idle ∧
      Transition.ReachesBy step (Spares {true}) w final ∧ final.Served {true} false := by
  have places : (Transition.run step (World.start Bool) (List.replicate 4 (true, refusal) ++
      List.replicate 3 (false, refusal))).map (fun w =>
        (decide (w.pc false = .idle), w.pc true)) =
      some (false, .fetching sampleRequest 0 0 true .connect) := by decide +kernel
  obtain ⟨w, ran, seen⟩ := Option.map_eq_some_iff.mp places
  obtain ⟨busy, connects⟩ := Prod.mk.inj seen
  have reached : Transition.Reaches step (World.start Bool) w := .of_run ran .start
  have stalls : AtSocket (w.pc true) := by
    rw [connects]
    trivial
  have inside : w.pc false ≠ .idle := fun idle => by simp [idle] at busy
  obtain ⟨final, went, _, served⟩ := stalled_hold_up_their_readers reached
    (fun i (member : i ∈ ({true} : Set Bool)) => by
      rw [Set.mem_singleton_iff] at member
      exact member ▸ stalls)
  exact ⟨w, final, reached, stalls, inside, went, served false (by simp)⟩

end World

end OperationSystems.Proxy
