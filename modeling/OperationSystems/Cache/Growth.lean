import OperationSystems.Cache.Append

/-!
# What the growth of an entry costs

`cache_append_data` at least doubles the allocation whenever it does not suffice. So what
`realloc` is given over all calls, the refused one included, is at most a constant times what
is stored, and the number of its calls is logarithmic in it.
-/

namespace OperationSystems.Cache

/-! ## One call -/

/-- The append calls `realloc`. -/
def RawEntry.reallocates (e : RawEntry) (data : Option Block) : Bool :=
  match data with
  | none => false
  | some block =>
      block.bytes.length != 0 && !e.failed &&
        decide (e.capacity < sizeAdd e.size block.bytes.length)

/-- What does not fit is not empty. -/
theorem payload_ne_nil {e : CacheEntry} {data : Option Block}
    (more : e.capacity < e.size + (payload data).length) : payload data ≠ [] := by
  intro empty
  rw [empty] at more
  exact absurd more (not_lt.mpr e.fits)

/-- `realloc` is called where something does not fit into a sane entry. -/
theorem reallocates_iff {e : CacheEntry} {data : Option Block} :
    e.raw.reallocates data = true ↔
      payload data ≠ [] ∧ e.failed = false ∧ e.capacity < e.size + (payload data).length := by
  cases data with
  | none => simp [RawEntry.reallocates, payload]
  | some block =>
      have need := sizeAdd_eq e.size_le block.bounded
      simp [RawEntry.reallocates, payload, CacheEntry.raw, need, and_assoc]

/-- An append leaves the allocation, replaces it by one that is at least double, or is
refused another one. -/
inductive Resized (e next : CacheEntry) (data : Option Block) : Prop
  | kept : e.raw.reallocates data = false → next.capacity = e.capacity → e.size ≤ next.size →
      next.failed = e.failed → Resized e next data
  | grown : e.raw.reallocates data = true → e.failed = false → next.failed = false →
      e.capacity < next.size → next.capacity =
        max next.size (if e.capacity = 0 then firstCapacity else 2 * e.capacity) →
      Resized e next data
  | refused : e.raw.reallocates data = true → e.failed = false → next.failed = true →
      next.capacity = e.capacity → next.size = e.size → Resized e next data

/-- **One call** resizes the allocation in one of these ways. -/
theorem cacheAppendData_resized (e : CacheEntry) (data : Option Block) (answer : ReallocAnswer) :
    Resized e (cacheAppendData e data answer).2 data := by
  obtain ⟨succeeds, next, ran, appended, capacity⟩ | ⟨fails, ran⟩ :=
    cacheAppendData_succeeds e data answer
  · rw [ran]
    have size := appended.size
    cases calls : e.raw.reallocates data with
    | false =>
        have fits : e.size + (payload data).length ≤ e.raw.capacity := by
          rcases succeeds with empty | ⟨sane, _⟩
          · rw [empty]
            exact e.fits
          · by_contra more
            have called : e.raw.reallocates data = true :=
              reallocates_iff.mpr ⟨payload_ne_nil (not_le.mp more), sane, not_le.mp more⟩
            simp [called] at calls
        exact .kept calls (capacity.trans (if_pos fits)) (by dsimp only; omega) appended.failed
    | true =>
        obtain ⟨_, sane, more⟩ := reallocates_iff.mp calls
        refine .grown calls sane (appended.failed.trans sane) (by rw [size]; exact more) ?_
        rw [size]
        exact capacity.trans (if_neg (not_le.mpr more))
  · rw [ran]
    have some : payload data ≠ [] := fun empty => fails (.inl empty)
    cases failed : e.failed with
    | true =>
        have calls : e.raw.reallocates data = false := by
          rw [← Bool.not_eq_true, reallocates_iff]
          simp [failed]
        exact .kept calls rfl le_rfl failed.symm
    | false =>
        have more : e.capacity < e.size + (payload data).length := by
          by_contra fits
          exact fails (.inr ⟨failed, .inl (not_lt.mp fits)⟩)
        exact .refused (reallocates_iff.mpr ⟨some, failed, more⟩) failed rfl rfl rfl

/-! ## All calls -/

/-- An entry, the number of calls of `realloc`, and the size of all blocks that these were
given. -/
structure Growing where
  entry : RawEntry
  reallocs : ℕ
  given : ℕ

/-- What a refused call can add: it is the last one. -/
def RawEntry.toll (e : RawEntry) : ℕ := if e.failed then 2 else 1

namespace Growing

def start (e : CacheEntry) : Growing := ⟨e.raw, 0, 0⟩

/-- One call. -/
def step (s : Growing) (call : AppendCall) : Option Growing :=
  (s.entry.append call.data call.answer).map fun (_, next) =>
    if s.entry.reallocates call.data then
      ⟨next, s.reallocs + 1, s.given + s.entry.capacity⟩
    else ⟨next, s.reallocs, s.given⟩

/-- The invariant: the allocation pays for all that `realloc` was given and for all calls,
and twice for a refused one. -/
structure Paid (s : Growing) (e : CacheEntry) : Prop where
  raw : s.entry = e.raw
  given : s.given ≤ e.raw.toll * e.capacity
  calls : e.capacity = 0 ∧ 2 ^ s.reallocs ≤ e.raw.toll ∨
    firstCapacity * 2 ^ s.reallocs ≤ e.raw.toll * (2 * e.capacity)
  tight : e.capacity ≤ max firstCapacity (2 * e.size)

variable {s next : Growing} {e : CacheEntry}

theorem paid_start {answer : CreateAnswer} {key : CStrings.CString}
    (created : cacheEntryCreate answer key = some e) : Paid (start e) e := by
  obtain rfl := cacheEntryCreate_eq created
  exact ⟨rfl, le_rfl, .inl ⟨rfl, le_rfl⟩, Nat.zero_le _⟩

theorem toll_of_sane (sane : e.failed = false) : e.raw.toll = 1 := by
  simp [RawEntry.toll, CacheEntry.raw, sane]

theorem toll_of_failed (failed : e.failed = true) : e.raw.toll = 2 := by
  simp [RawEntry.toll, CacheEntry.raw, failed]

/-- A call on the fields of an entry. -/
theorem step_eq (raw : s.entry = e.raw) (call : AppendCall) :
    step s call = some (if e.raw.reallocates call.data then
      ⟨(cacheAppendData e call.data call.answer).2.raw, s.reallocs + 1, s.given + e.capacity⟩
    else ⟨(cacheAppendData e call.data call.answer).2.raw, s.reallocs, s.given⟩) := by
  unfold step
  rw [raw, raw_append]
  rfl

/-- **The step lemma.** Every call is paid for by the allocation behind it. -/
theorem Paid.step (paid : Paid s e) (call : AppendCall)
    (moved : Growing.step s call = some next) :
    Paid next (cacheAppendData e call.data call.answer).2 := by
  rw [step_eq paid.raw] at moved
  have result := Option.some.inj moved
  have resized := cacheAppendData_resized e call.data call.answer
  generalize (cacheAppendData e call.data call.answer).2 = e' at result resized ⊢
  have given := paid.given
  have calls := paid.calls
  have tight := paid.tight
  cases resized with
  | kept called capacity size failed =>
      have same : e'.raw.toll = e.raw.toll := by
        unfold RawEntry.toll
        exact congrArg (fun b : Bool => if b then 2 else 1) failed
      simp only [called, Bool.false_eq_true, ↓reduceIte] at result
      subst result
      refine ⟨rfl, ?_, ?_, ?_⟩
      · rwa [same, capacity]
      · rwa [same, capacity]
      · rw [capacity]
        omega
  | grown called sane sane' more capacity =>
      simp only [called, ↓reduceIte] at result
      subst result
      rw [toll_of_sane sane] at given calls
      rw [one_mul] at given
      refine ⟨rfl, ?_, .inr ?_, ?_⟩
      · rw [toll_of_sane sane', one_mul]
        change s.given + e.capacity ≤ e'.capacity
        split at capacity <;> omega
      · -- an allocation that was empty has paid for no call
        rw [toll_of_sane sane', one_mul, Nat.pow_succ]
        generalize 2 ^ s.reallocs = factor at calls
        unfold firstCapacity at *
        split at capacity <;> omega
      · split at capacity <;> omega
  | refused called sane failed capacity size =>
      simp only [called, ↓reduceIte] at result
      subst result
      rw [toll_of_sane sane] at given calls
      refine ⟨rfl, ?_, ?_, ?_⟩
      · rw [toll_of_failed failed, capacity]
        change s.given + e.capacity ≤ 2 * e.capacity
        omega
      · rw [toll_of_failed failed, capacity, Nat.pow_succ]
        generalize 2 ^ s.reallocs = factor at calls
        unfold firstCapacity at *
        omega
      · rwa [capacity, size]

/-- **The run lemma.** So are all calls on a new entry. -/
theorem exists_paid {answer : CreateAnswer} {key : CStrings.CString}
    (created : cacheEntryCreate answer key = some e)
    (reached : Transition.Reaches step (start e) s) : ∃ e, Paid s e := by
  refine reached.invariant (motive := fun s => ∃ e, Paid s e) ⟨e, paid_start created⟩ ?_
  rintro s call next ⟨e, paid⟩ _ moved
  exact ⟨_, paid.step call moved⟩

/-- **Appending costs a constant for each byte.** In every sequence of appends to an entry,
whatever `realloc` answers: the allocation is at most 64 KiB or twice what is stored; all
blocks that were ever given to `realloc` are together no larger than that, or twice as large
where a last call was refused; and so the calls are at most logarithmic in what is stored. -/
theorem append_amortized {answer : CreateAnswer} {key : CStrings.CString}
    (created : cacheEntryCreate answer key = some e)
    (reached : Transition.Reaches step (start e) s) :
    s.entry.capacity ≤ max firstCapacity (2 * s.entry.size) ∧
      s.given ≤ s.entry.toll * max firstCapacity (2 * s.entry.size) ∧
      firstCapacity * 2 ^ s.reallocs ≤
        s.entry.toll * (2 * max firstCapacity (2 * s.entry.size)) := by
  obtain ⟨e, paid⟩ := exists_paid created reached
  have tight := paid.tight
  rw [paid.raw]
  refine ⟨tight, paid.given.trans (Nat.mul_le_mul_left _ tight), ?_⟩
  rcases paid.calls with ⟨_, few⟩ | enough
  · calc firstCapacity * 2 ^ s.reallocs
        ≤ firstCapacity * e.raw.toll := Nat.mul_le_mul_left _ few
      _ = e.raw.toll * firstCapacity := Nat.mul_comm _ _
      _ ≤ e.raw.toll * (2 * max firstCapacity (2 * e.size)) :=
          Nat.mul_le_mul_left _ (by omega)
  · exact enough.trans (Nat.mul_le_mul_left _ (Nat.mul_le_mul_left 2 tight))

/-! ## A doubling and a refused call -/

section Calls

variable (raw : s.entry = e.raw) (sane : e.failed = false) (block : Block)
  (more : e.capacity < e.size + block.bytes.length)

include raw sane more

/-- A call for which `realloc` has memory. -/
theorem step_granted (added : ℕ → UInt8)
    (small : e.raw.wanted (e.size + block.bytes.length) ≤ ptrdiffMax) :
    ∃ next, ∃ e' : CacheEntry, step s ⟨some block, some added⟩ = some next ∧
      next.entry = e'.raw ∧ e'.failed = false ∧ e'.size = e.size + block.bytes.length ∧
        e'.capacity = e.raw.wanted (e.size + block.bytes.length) ∧
          next.reallocs = s.reallocs + 1 ∧ next.given = s.given + e.capacity := by
  have succeeds : e.raw.Succeeds (.some block) (.some added) :=
    .inr ⟨sane, .inr ⟨small, by simp⟩⟩
  obtain ⟨_, next, ran, appended, capacity⟩ | ⟨fails, _⟩ :=
    cacheAppendData_succeeds e (.some block) (.some added)
  · have called : e.raw.reallocates (.some block) = true :=
      reallocates_iff.mpr ⟨payload_ne_nil more, sane, more⟩
    refine ⟨_, next, step_eq raw _, ?_⟩
    rw [if_pos called, ran]
    exact ⟨rfl, appended.failed.trans sane, appended.size, capacity, rfl, rfl⟩
  · exact absurd succeeds fails

/-- A call for which it has none. -/
theorem step_refused : step s ⟨some block, none⟩ =
    some ⟨{ e.raw with failed := true }, s.reallocs + 1, s.given + e.capacity⟩ := by
  have some : payload (some block) ≠ [] := payload_ne_nil more
  have called : e.raw.reallocates (.some block) = true := reallocates_iff.mpr ⟨some, sane, more⟩
  obtain ⟨succeeds, _⟩ | ⟨_, ran⟩ := cacheAppendData_succeeds e (.some block) none
  · obtain ⟨_, room | granted⟩ := succeeds.resolve_left some
    · exact absurd room (not_le.mpr more)
    · exact absurd rfl granted.2
  · rw [step_eq raw, if_pos called, ran]
    rfl

end Calls

/-- The theorem behind 64 KiB, a byte for which the allocation is doubled, and 128 KiB for
which `realloc` returns NULL. -/
theorem append_amortized_run : ∃ s, Transition.Reaches step
    (start (freshEntry ⟨[107], by decide⟩)) s ∧ s.reallocs = 3 ∧ s.entry.size = 65537 ∧
      s.given = 196608 ∧ s.entry.toll = 2 ∧ s.given ≤ 2 * max firstCapacity (2 * 65537) := by
  have created : cacheEntryCreate .ok ⟨[107], by decide⟩ = some (freshEntry ⟨[107], by decide⟩) :=
    rfl
  obtain ⟨s₁, e₁, moved₁, raw₁, sane₁, size₁, capacity₁, reallocs₁, given₁⟩ :=
    step_granted (rfl : (start (freshEntry ⟨[107], by decide⟩)).entry = _) rfl
      (repeated 65536 97 (by decide)) (by rw [length_repeated]; decide) (fun _ => 0)
      (by rw [length_repeated]; decide)
  rw [length_repeated] at size₁ capacity₁
  replace size₁ : e₁.size = 65536 := size₁
  replace capacity₁ : e₁.capacity = 65536 :=
    capacity₁.trans (by simp [RawEntry.wanted, CacheEntry.raw, freshEntry])
  have wanted₁ : e₁.raw.wanted 65537 = 131072 := by
    simp [RawEntry.wanted, CacheEntry.raw, capacity₁]
  obtain ⟨s₂, e₂, moved₂, raw₂, sane₂, size₂, capacity₂, reallocs₂, given₂⟩ :=
    step_granted raw₁ sane₁ (repeated 1 98 (by decide))
      (by rw [length_repeated, size₁, capacity₁]; decide) (fun _ => 0)
      (by rw [length_repeated, size₁, wanted₁]; decide)
  rw [length_repeated, size₁] at size₂ capacity₂
  rw [wanted₁] at capacity₂
  have moved₃ := step_refused raw₂ sane₂ (repeated 131072 99 (by decide))
    (by rw [length_repeated, size₂, capacity₂]; decide)
  have reached₁ : Transition.Reaches step (start (freshEntry ⟨[107], by decide⟩)) s₁ :=
    .next .start _ moved₁
  have reached := (reached₁.next _ moved₂).next _ moved₃
  have given : s₂.given + e₂.capacity = 196608 := by
    rw [given₂, given₁, capacity₁, capacity₂]
    rfl
  obtain ⟨_, bound, _⟩ := append_amortized created reached
  refine ⟨_, reached, ?_, size₂, given, rfl, ?_⟩
  · change s₂.reallocs + 1 = 3
    rw [reallocs₂, reallocs₁]
    rfl
  · change _ ≤ 2 * max firstCapacity (2 * e₂.size) at bound
    rwa [size₂] at bound

end Growing

end OperationSystems.Cache
