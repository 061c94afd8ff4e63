import OperationSystems.Cache.Destroy
import OperationSystems.Proxy.Process
import OperationSystems.ThreadPool.Accounts

/-!
# What `proxy_run` leaves behind

When the main thread comes to `cache_table_destroy` the workers are gone: no lock is held
and every entry is linked in its bucket. So the loops of `cache_table_destroy` free every
entry that was not freed before, and free it once; and no task is left.
-/

namespace OperationSystems.Proxy

open Cache ThreadPool SharedRegistry

namespace Run

variable {n : ℕ} {s s' : Run n}

/-- The last step of the main thread. -/
theorem stepMain_returned {answers : MainAnswers n} (stepped : s.stepMain answers = some s')
    (returned : s'.main = .returned) :
    s.main = .destroy ∧ s'.proxy = { s.proxy with table := s.proxy.table.cacheTableDestroy } := by
  unfold stepMain at stepped
  cases place : s.main with
  | create =>
      rw [place] at stepped
      dsimp only at stepped
      split at stepped
      · split_ifs at stepped <;> exact absurd (Option.some.inj stepped ▸ returned) (by simp [goto])
      · exact absurd (Option.some.inj stepped ▸ returned) (by simp [goto])
      · obtain ⟨pool, _, rfl⟩ := Option.map_eq_some_iff.mp stepped
        cases returned
  | accept =>
      rw [place] at stepped
      dsimp only at stepped
      split at stepped <;> obtain rfl := Option.some.inj stepped
      · cases returned
      · exact absurd (place.symm.trans returned) (by simp)
      · cases returned
  | accepted cfd =>
      rw [place] at stepped
      dsimp only at stepped
      split_ifs at stepped <;> exact absurd (Option.some.inj stepped ▸ returned) (by simp [goto])
  | submit ctx =>
      rw [place] at stepped
      obtain ⟨pool, _, rfl⟩ := Option.map_eq_some_iff.mp stepped
      dsimp only at returned
      split at returned <;> cases returned
  | stop =>
      rw [place] at stepped
      dsimp only at stepped
      split at stepped
      · exact absurd (Option.some.inj stepped ▸ returned) (by simp [goto])
      · obtain ⟨pool, _, rfl⟩ := Option.map_eq_some_iff.mp stepped
        cases returned
  | destroy =>
      rw [place] at stepped
      obtain rfl := Option.some.inj stepped
      exact ⟨rfl, rfl⟩
  | returned =>
      rw [place] at stepped
      cases stepped
  | _ =>
      rw [place] at stepped
      exact absurd (Option.some.inj stepped ▸ returned) (by simp [goto])

/-- Where the pool is gone no worker is in `handle_client`. -/
theorem Kept.all_outside (kept : s.Kept) (gone : s.main = .destroy ∨ s.main = .returned)
    (i : Fin n) : s.handler i = .outside := by
  obtain ⟨_, idle⟩ := kept.pool.at_end (kept.ended gone)
  refine (kept.running i).mpr fun p runs => ?_
  have none := idle i
  rw [runs] at none
  cases none

/-- What the main thread finds when it comes to `cache_table_destroy`. -/
structure Deserted (w : World (Fin n)) : Prop where
  idle : ∀ i, w.pc i = .idle
  free : ∀ l, w.lock l = none
  linked : w.table.WellLinked
  listed : ∀ p, w.table.heap p ≠ none ↔ w.table.Linked p

/-- When the main thread comes to destroy the table, everybody has left. -/
theorem deserted_of_destroy (reached : Transition.Reaches step (start n) s)
    (place : s.main = .destroy) : Deserted s.proxy := by
  have kept := reached_kept reached
  obtain ⟨here, sound, _⟩ := reached_proxy reached (by rw [place]; exact nofun)
  have idle : ∀ i, s.proxy.pc i = .idle := fun i => by
    refine kept.idle i fun h inside => ?_
    rw [kept.all_outside (.inl place) i] at inside
    cases inside
  refine ⟨idle, fun l => ?_, here.linked, fun p => ⟨fun there => ?_, fun member => ?_⟩⟩
  · refine Option.eq_none_iff_forall_ne_some.mpr fun i owner => ?_
    have holds := (here.owned l i).mp owner
    rw [idle i] at holds
    cases holds
  · obtain ⟨e, found⟩ := Option.ne_none_iff_exists'.mp there
    rcases sound.listing.item_place p (item e) (World.view_item found) with listed | ⟨i, frees⟩
    · exact listed
    · change role (s.proxy.pc i) = _ at frees
      rw [idle i] at frees
      cases frees
  · obtain ⟨e, found⟩ := here.linked.allocated member
    simp [found]

/-- What is left of the cache where every entry is linked. -/
theorem Deserted.destroyed {w : World (Fin n)} (deserted : Deserted w) (p : Cache.Ptr) :
    w.table.cacheTableDestroy.heap p = none := by
  obtain ⟨freed, _, destroys, _, linked⟩ := deserted.linked.destroyLoops
  rw [destroys, CacheTable.foldl_cacheEntryDestroy]
  dsimp only
  by_cases member : w.table.Linked p
  · rw [if_pos ((linked p).mpr member)]
  · rw [if_neg fun listed => member ((linked p).mp listed)]
    by_contra there
    exact member ((deserted.listed p).mp there)

/-- Behind the return nothing happens any more. -/
theorem reached_emptied (reached : Transition.Reaches step (start n) s)
    (returned : s.main = .returned) :
    (∀ p, s.proxy.table.heap p = none) ∧ ∀ l, s.proxy.lock l = none := by
  induction reached with
  | start => cases returned
  | @step v next label before _ stepped ih =>
      have reached : Transition.Reaches step (start n) v := before
      cases label with
      | main answers =>
          obtain ⟨place, emptied⟩ := stepMain_returned stepped returned
          have deserted := deserted_of_destroy reached place
          rw [emptied]
          exact ⟨deserted.destroyed, deserted.free⟩
      | worker i =>
          obtain ⟨main, same⟩ := stepWorker_proxy stepped
          rw [same]
          exact ih (main ▸ returned)
      | handler i answers =>
          obtain ⟨inside, main, _⟩ := stepHandler_proxy stepped
          exact absurd ((reached_kept reached).all_outside (.inr (main ▸ returned)) i) inside

/-- **Nothing is left in memory, and no entry is freed twice.** In every run of `proxy_run`,
when the main thread comes to `cache_table_destroy`, no worker is inside `handle_client` and no
lock is held; the loops then read no entry that is freed, and free exactly the entries that are
in memory, each of them once. When it has returned no entry and no task is in memory. -/
theorem nothing_left (reached : Transition.Reaches step (start n) s) :
    (s.main = .destroy → (∀ i, s.handler i = .outside) ∧ (∀ l, s.proxy.lock l = none) ∧
      ∃ final freed, s.proxy.table.destroyLoops = some (final, freed) ∧ freed.Nodup ∧
        (∀ p, p ∈ freed ↔ s.proxy.table.heap p ≠ none) ∧
        s.proxy.table.cacheTableDestroy = { final with buckets := fun _ => none }) ∧
    (s.main = .returned → (∀ i, s.handler i = .outside) ∧ (∀ l, s.proxy.lock l = none) ∧
      (∀ p, s.proxy.table.heap p = none) ∧ ∀ p, s.pool.heap p = none) := by
  have kept := reached_kept reached
  refine ⟨fun place => ?_, fun place => ?_⟩
  · have deserted := deserted_of_destroy reached place
    obtain ⟨freed, loops, destroys, distinct, linked⟩ := deserted.linked.destroyLoops
    refine ⟨kept.all_outside (.inl place), deserted.free, _, freed, loops, distinct, fun p => ?_,
      destroys⟩
    rw [linked, deserted.listed]
  · obtain ⟨emptied, free⟩ := reached_emptied reached place
    obtain ⟨invariant, accounted⟩ := Pool.reached_accounted (reached_pool reached)
    exact ⟨kept.all_outside (.inr place), free, emptied,
      accounted.at_end invariant (kept.ended (.inr place))⟩

/-- The answers of `closing`, from an origin whose name is known. -/
def answering : HandlerAnswers := { closing with gethostbyname := true, socket := true }

/-- The theorem at a run in which the origin's answer to one client was complete. -/
theorem nothing_left_run : ∃ s : Run 1, Transition.Reaches step (start 1) s ∧
    s.main = .destroy ∧ ∃ final freed,
      s.proxy.table.destroyLoops = some (final, freed) ∧ 0 ∈ freed := by
  have ran : ((Transition.run step (start 1)
      (List.replicate 9 (.main granted) ++ [.main { granted with accept := .failed }] ++
        List.replicate 5 (.worker 0) ++ List.replicate 4 (.handler 0 unreachable) ++
        List.replicate 16 (.handler 0 answering) ++ List.replicate 2 (.worker 0) ++
        List.replicate 4 (.main granted) ++ List.replicate 3 (.worker 0) ++
        List.replicate 4 (.main granted))).map fun s =>
          (s.main, (s.proxy.table.heap 0).isSome)) = some (.destroy, true) := by
    decide +kernel
  obtain ⟨s, run, seen⟩ := Option.map_eq_some_iff.mp ran
  obtain ⟨place, kept⟩ := Prod.mk.inj seen
  have reached := Transition.Reaches.of_run run .start
  obtain ⟨_, _, final, freed, loops, _, frees, _⟩ := (nothing_left reached).1 place
  exact ⟨s, reached, place, final, freed, loops, (frees 0).mpr (Option.isSome_iff_ne_none.mp kept)⟩

end Run

end OperationSystems.Proxy
