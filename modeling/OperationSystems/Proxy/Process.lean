import OperationSystems.Proxy.Ownership
import OperationSystems.Proxy.Quiescence

/-!
# The pool and the cache inside the process

What the process does to the pool is what the threads of a pool do, and what it does to
the cache is, up to `cache_table_destroy`, what the handlers do. So what holds of a pool
with any users and of the handlers alone holds in every run of `proxy_run`.
-/

namespace OperationSystems.Proxy

open Cache ThreadPool SharedRegistry

namespace Run

variable {n : ℕ} {s s' : Run n}

/-! ## The handlers -/

/-- The main thread leaves the cache alone but at the end. -/
theorem stepMain_proxy {answers : MainAnswers n} (stepped : s.stepMain answers = some s') :
    s.main ≠ .returned ∧ (s'.proxy = s.proxy ∨ s.main = .destroy ∧ s' = { s.goto .returned with
      proxy := { s.proxy with table := s.proxy.table.cacheTableDestroy } }) := by
  unfold stepMain at stepped
  cases place : s.main with
  | create =>
      rw [place] at stepped
      refine ⟨by simp, .inl ?_⟩
      dsimp only at stepped
      split at stepped
      · split_ifs at stepped <;> exact Option.some.inj stepped ▸ rfl
      · exact Option.some.inj stepped ▸ rfl
      · obtain ⟨pool, _, rfl⟩ := Option.map_eq_some_iff.mp stepped
        rfl
  | accept =>
      rw [place] at stepped
      refine ⟨by simp, .inl ?_⟩
      dsimp only at stepped
      split at stepped <;> exact Option.some.inj stepped ▸ rfl
  | accepted cfd =>
      rw [place] at stepped
      refine ⟨by simp, .inl ?_⟩
      dsimp only at stepped
      split_ifs at stepped <;> exact Option.some.inj stepped ▸ rfl
  | submit ctx =>
      rw [place] at stepped
      obtain ⟨pool, _, rfl⟩ := Option.map_eq_some_iff.mp stepped
      exact ⟨by simp, .inl rfl⟩
  | stop =>
      rw [place] at stepped
      refine ⟨by simp, .inl ?_⟩
      dsimp only at stepped
      split at stepped
      · exact Option.some.inj stepped ▸ rfl
      · obtain ⟨pool, _, rfl⟩ := Option.map_eq_some_iff.mp stepped
        rfl
  | destroy =>
      rw [place] at stepped
      exact ⟨by simp, .inr ⟨rfl, (Option.some.inj stepped).symm⟩⟩
  | returned =>
      rw [place] at stepped
      cases stepped
  | _ =>
      rw [place] at stepped
      exact ⟨by simp, .inl (Option.some.inj stepped ▸ rfl)⟩

/-- A worker in `workerLoop` leaves the cache alone. -/
theorem stepWorker_proxy {i : Fin n} (stepped : s.stepWorker i = some s') :
    s'.main = s.main ∧ s'.proxy = s.proxy := by
  unfold stepWorker at stepped
  split at stepped
  · obtain ⟨task, _, stepped⟩ := Option.bind_eq_some_iff.mp stepped
    obtain ⟨pool, _, rfl⟩ := Option.map_eq_some_iff.mp stepped
    exact ⟨rfl, rfl⟩
  · split at stepped
    · obtain ⟨pool, _, rfl⟩ := Option.map_eq_some_iff.mp stepped
      exact ⟨rfl, rfl⟩
    · cases stepped
  · obtain ⟨pool, _, rfl⟩ := Option.map_eq_some_iff.mp stepped
    exact ⟨rfl, rfl⟩

/-- Closing a socket changes nothing but the handler. -/
theorem closeNext_proxy {i : Fin n} {h : Handler} (closed : s.closeNext i h = some s') :
    s'.main = s.main ∧ s'.pool = s.pool ∧ s'.proxy = s.proxy := by
  unfold closeNext at closed
  split at closed
  · exact Option.some.inj closed ▸ ⟨rfl, rfl, rfl⟩
  · split_ifs at closed
    exact Option.some.inj closed ▸ ⟨rfl, rfl, rfl⟩

/-- A step of a handler is one of the proxy. -/
theorem proceed_proxy {i : Fin n} {h : Handler} {answers : HandlerAnswers}
    (stepped : s.proceed i h answers = some s') : s'.main = s.main ∧ s'.pool = s.pool ∧
      ∃ answers', s.proxy.step (i, answers') = some s'.proxy := by
  unfold proceed at stepped
  obtain ⟨proxy, moved, rfl⟩ := Option.map_eq_some_iff.mp stepped
  dsimp only
  split <;> exact ⟨rfl, rfl, _, moved⟩

/-- A worker in `handle_client` takes a step there, or only opens or closes something. -/
theorem stepHandler_proxy {i : Fin n} {answers : HandlerAnswers}
    (stepped : s.stepHandler i answers = some s') : s.handler i ≠ .outside ∧ s'.main = s.main ∧
      s'.pool = s.pool ∧ (s'.proxy = s.proxy ∨
        ∃ answers', s.proxy.step (i, answers') = some s'.proxy) := by
  unfold stepHandler at stepped
  cases place : s.handler i with
  | outside =>
      rw [place] at stepped
      cases stepped
  | called ctx =>
      rw [place] at stepped
      obtain ⟨proxy, moved, rfl⟩ := Option.map_eq_some_iff.mp stepped
      exact ⟨by simp, rfl, rfl, .inr ⟨_, moved⟩⟩
  | returned =>
      rw [place] at stepped
      cases stepped
  | inside h =>
      rw [place] at stepped
      dsimp only at stepped
      have goes : ∀ {s' : Run n}, s.proceed i h answers = some s' → s'.main = s.main ∧
          s'.pool = s.pool ∧ (s'.proxy = s.proxy ∨
            ∃ answers', s.proxy.step (i, answers') = some s'.proxy) := fun moved => by
        obtain ⟨main, pool, walked⟩ := proceed_proxy moved
        exact ⟨main, pool, .inr walked⟩
      have shuts : ∀ {s' : Run n}, s.closeNext i h = some s' → s'.main = s.main ∧
          s'.pool = s.pool ∧ (s'.proxy = s.proxy ∨
            ∃ answers', s.proxy.step (i, answers') = some s'.proxy) := fun closed => by
        obtain ⟨main, pool, same⟩ := closeNext_proxy closed
        exact ⟨main, pool, .inl same⟩
      refine ⟨by simp, ?_⟩
      split at stepped
      · cases closes : s.closeNext i h with
        | some s₁ =>
            rw [closes] at stepped
            obtain rfl := Option.some.inj stepped
            exact shuts closes
        | none =>
            rw [closes] at stepped
            exact Option.some.inj stepped ▸ ⟨rfl, rfl, .inl rfl⟩
      · split at stepped
        · split_ifs at stepped <;> exact Option.some.inj stepped ▸ ⟨rfl, rfl, .inl rfl⟩
        · split_ifs at stepped <;> exact Option.some.inj stepped ▸ ⟨rfl, rfl, .inl rfl⟩
        · exact goes stepped
      · split_ifs at stepped
        · cases closes : s.closeNext i h with
          | some s₁ =>
              rw [closes] at stepped
              obtain rfl := Option.some.inj stepped
              exact shuts closes
          | none =>
              rw [closes] at stepped
              exact goes stepped
        · exact goes stepped
      · exact goes stepped

/-- **The handlers in the process run as they do alone**, until the main thread has
returned. -/
theorem reached_world (reached : Transition.Reaches step (start n) s)
    (running : s.main ≠ .returned) :
    Transition.Reaches World.step (World.start (Fin n)) s.proxy := by
  revert running
  refine reached.invariant (motive := fun s : Run n => s.main ≠ .returned →
    Transition.Reaches World.step (World.start (Fin n)) s.proxy) (fun _ => .start) ?_
  intro v label next before _ stepped running
  cases label with
  | main answers =>
      obtain ⟨going, same | ⟨_, rfl⟩⟩ := stepMain_proxy stepped
      · rw [same]
        exact before going
      · exact absurd rfl running
  | worker i =>
      obtain ⟨main, same⟩ := stepWorker_proxy stepped
      rw [same]
      exact before (main ▸ running)
  | handler i answers =>
      obtain ⟨_, main, _, same | ⟨answers', moved⟩⟩ := stepHandler_proxy stepped
      · rw [same]
        exact before (main ▸ running)
      · exact (before (main ▸ running)).next (i, answers') moved

/-- Until the main thread has returned, the workers find the cache as they left it. -/
theorem reached_proxy (reached : Transition.Reaches step (start n) s)
    (running : s.main ≠ .returned) :
    s.proxy.Local ∧ Sound s.proxy.view ∧ s.proxy.Within := by
  have world := reached_world reached running
  obtain ⟨here, sound⟩ := World.sound_of_reaches world
  exact ⟨here, sound, World.within_of_reaches world⟩

/-! ## The pool -/

/-- The pool's side of a worker's step. -/
theorem stepWorker_pool {i : Fin n} (stepped : s.stepWorker i = some s') :
    s.pool.stepWorker i = some s'.pool := by
  unfold stepWorker at stepped
  split at stepped
  · obtain ⟨task, _, stepped⟩ := Option.bind_eq_some_iff.mp stepped
    obtain ⟨pool, moved, rfl⟩ := Option.map_eq_some_iff.mp stepped
    exact moved
  · split at stepped
    · obtain ⟨pool, moved, rfl⟩ := Option.map_eq_some_iff.mp stepped
      exact moved
    · cases stepped
  · obtain ⟨pool, moved, rfl⟩ := Option.map_eq_some_iff.mp stepped
    exact moved

/-- The pool's side of a step of the main thread. -/
theorem stepMain_pool {answers : MainAnswers n} (stepped : s.stepMain answers = some s') :
    s'.pool = s.pool ∨ ∃ label, s.pool.step label = some s'.pool := by
  unfold stepMain at stepped
  cases place : s.main with
  | create =>
      rw [place] at stepped
      dsimp only at stepped
      split at stepped
      · split_ifs at stepped <;> exact .inl (Option.some.inj stepped ▸ rfl)
      · exact .inl (Option.some.inj stepped ▸ rfl)
      · obtain ⟨pool, moved, rfl⟩ := Option.map_eq_some_iff.mp stepped
        exact .inr ⟨.owner answers.create, moved⟩
  | accept =>
      rw [place] at stepped
      dsimp only at stepped
      split at stepped <;> exact .inl (Option.some.inj stepped ▸ rfl)
  | accepted cfd =>
      rw [place] at stepped
      dsimp only at stepped
      split_ifs at stepped <;> exact .inl (Option.some.inj stepped ▸ rfl)
  | submit ctx =>
      rw [place] at stepped
      obtain ⟨pool, moved, rfl⟩ := Option.map_eq_some_iff.mp stepped
      exact .inr ⟨.caller () (some ctx) answers.taskMalloc answers.woken, moved⟩
  | stop =>
      rw [place] at stepped
      dsimp only at stepped
      split at stepped
      · exact .inl (Option.some.inj stepped ▸ rfl)
      · obtain ⟨pool, moved, rfl⟩ := Option.map_eq_some_iff.mp stepped
        exact .inr ⟨.owner answers.create, moved⟩
  | returned =>
      rw [place] at stepped
      cases stepped
  | _ =>
      rw [place] at stepped
      exact .inl (Option.some.inj stepped ▸ rfl)

/-- **The pool in the process runs as it does for any users.** -/
theorem reached_pool (reached : Transition.Reaches step (start n) s) :
    Transition.Reaches Pool.step (Pool.start Unit ClientCtx n) s.pool := by
  refine reached.invariant (motive := fun s : Run n =>
    Transition.Reaches Pool.step (Pool.start Unit ClientCtx n) s.pool) .start ?_
  intro v label next before _ stepped
  cases label with
  | main answers =>
      rcases stepMain_pool stepped with same | ⟨label, moved⟩
      · rw [same]
        exact before
      · exact before.next label moved
  | worker i => exact before.next (.worker i) (stepWorker_pool stepped)
  | handler i answers =>
      obtain ⟨_, _, same, _⟩ := stepHandler_proxy stepped
      rw [same]
      exact before

end Run

end OperationSystems.Proxy
