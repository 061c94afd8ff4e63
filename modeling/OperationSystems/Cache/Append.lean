import OperationSystems.Cache.Entry
import OperationSystems.Foundation.Transition

/-!
# The append on plain fields

`cache_append_data` once more, now on fields that promise nothing: `size` and `capacity`
are any `size_t` values, and a copy that leaves the allocation is a fault (`none`). On
the fields of a `CacheEntry` it does what `cacheAppendData` does, so that no sequence of
appends to an entry from `cache_entry_create` wraps or writes outside the allocation, and
what is stored is what the successful calls were given. A call succeeds exactly if it has
nothing to append, or the entry has not failed and there is room or `realloc` makes it.
-/

namespace OperationSystems.Cache

open CStrings

/-- The allocation of a first append, at least. -/
abbrev firstCapacity : ℕ := 64 * 1024

/-- The fields of `cache_entry_t` that `cache_append_data` works on. -/
structure RawEntry where
  data : List UInt8
  size : Nat
  capacity : Nat
  failed : Bool

/-- The fields of an entry. -/
def CacheEntry.raw (e : CacheEntry) : RawEntry := ⟨e.data, e.size, e.capacity, e.failed⟩

/-- `memcpy` into an allocated block. -/
def copyTo (data : List UInt8) (offset : Nat) (source : List UInt8) : Option (List UInt8) :=
  if offset + source.length ≤ data.length then some (memcpy data offset source) else none

namespace RawEntry

/-- `data[0..size)`. -/
def stored (e : RawEntry) : List UInt8 := e.data.take e.size

/-- Lines 199 to 217: make room for `need` bytes, `none` when `realloc` returns NULL. -/
def reserve (e : RawEntry) (need : Nat) (answer : ReallocAnswer) : Option RawEntry :=
  if e.capacity < need then
    let newcap := if e.capacity ≠ 0 then sizeMul e.capacity 2 else 64 * 1024
    let newcap := if newcap < need then need else newcap
    (realloc answer e.data newcap).map fun newdata =>
      { e with data := newdata, capacity := newcap }
  else some e

/-- `cache_append_data`, the part under `e->lock`, and the value returned. -/
def append (e : RawEntry) (data : Option Block) (answer : ReallocAnswer) :
    Option (Int × RawEntry) :=
  match data with
  | none => some (0, e)
  | some block =>
      if block.bytes.length = 0 then some (0, e)
      else if e.failed then some (-1, e)
      else
        match e.reserve (sizeAdd e.size block.bytes.length) answer with
        | none => some (-1, { e with failed := true })
        | some e => (copyTo e.data e.size block.bytes).map fun data =>
            (0, { e with data := data, size := sizeAdd e.size block.bytes.length })

/-- The capacity behind an append that needs `need` bytes, in exact arithmetic. -/
def wanted (e : RawEntry) (need : ℕ) : ℕ :=
  if need ≤ e.capacity then e.capacity
  else max need (if e.capacity = 0 then firstCapacity else 2 * e.capacity)

/-- There is room for `need` bytes, or `realloc` makes it. -/
def Grants (e : RawEntry) (need : ℕ) (answer : ReallocAnswer) : Prop :=
  need ≤ e.capacity ∨ e.wanted need ≤ ptrdiffMax ∧ answer ≠ none

/-- There is nothing to append, or the entry has not failed and the room is there or
granted. -/
def Succeeds (e : RawEntry) (data : Option Block) (answer : ReallocAnswer) : Prop :=
  payload data = [] ∨ e.failed = false ∧ e.Grants (e.size + (payload data).length) answer

end RawEntry

/-! ## The append of an entry -/

section Agree

variable {e : CacheEntry}

/-- Making room for an entry is making room for its fields. -/
theorem raw_reserve (need : Nat) (answer : ReallocAnswer) :
    e.raw.reserve need answer = (e.reserve need answer).map CacheEntry.raw := by
  have asks : e.raw.reserve need answer = if e.capacity < need then
      (realloc answer e.data (e.newcap need)).map fun newdata =>
        ⟨newdata, e.size, e.newcap need, e.failed⟩
      else some e.raw := rfl
  rw [asks]
  unfold CacheEntry.reserve
  split
  · split
    · rename_i refused
      rw [refused]
      rfl
    · rename_i newdata granted
      exact congrArg (Option.map _) granted
  · rfl

section Calls

variable {block : Block} {answer : ReallocAnswer} (long : block.bytes.length ≠ 0)
  (sane : e.failed = false)

include long sane

/-- An append that gets no room fails, and marks the entry. -/
theorem cacheAppendData_refused
    (refused : e.reserve (sizeAdd e.size block.bytes.length) answer = none) :
    cacheAppendData e (some block) answer = (-1, { e with failed := true }) := by
  simp only [cacheAppendData, long, sane, ↓reduceIte, Bool.false_eq_true]
  split
  · rfl
  · rename_i grown granted
    rw [refused] at granted
    cases granted

/-- An append that has room returns 0 and writes its block. -/
theorem cacheAppendData_granted {grown : CacheEntry}
    (granted : e.reserve (sizeAdd e.size block.bytes.length) answer = some grown) :
    ∃ room, cacheAppendData e (some block) answer = (0, grown.fill block room) := by
  simp only [cacheAppendData, long, sane, ↓reduceIte, Bool.false_eq_true]
  split
  · rename_i refused
    rw [refused] at granted
    cases granted
  · rename_i other reserved
    obtain rfl := Option.some.inj (granted.symm.trans reserved)
    obtain ⟨room, size, _⟩ := e.reserve_spec granted
    exact ⟨by rw [size]; exact room, rfl⟩

end Calls

/-- On the fields of an entry the append stays inside the allocation and does what
`cacheAppendData` does. -/
theorem raw_append (data : Option Block) (answer : ReallocAnswer) :
    e.raw.append data answer =
      some ((cacheAppendData e data answer).1, (cacheAppendData e data answer).2.raw) := by
  cases data with
  | none => rfl
  | some block =>
      by_cases empty : block.bytes.length = 0
      · simp only [RawEntry.append, cacheAppendData, empty, ↓reduceIte]
      cases sane : e.failed with
      | true =>
          have also : e.raw.failed = true := sane
          simp only [RawEntry.append, cacheAppendData, empty, sane, also, ↓reduceIte]
      | false =>
          have also : e.raw.failed = false := sane
          have grows : e.raw.reserve (sizeAdd e.raw.size block.bytes.length) answer =
            (e.reserve (sizeAdd e.size block.bytes.length) answer).map CacheEntry.raw :=
              raw_reserve _ answer
          simp only [RawEntry.append, empty, also, Bool.false_eq_true, ↓reduceIte, grows]
          cases reserved : e.reserve (sizeAdd e.size block.bytes.length) answer with
          | none =>
              rw [cacheAppendData_refused empty sane reserved]
              rfl
          | some grown =>
              obtain ⟨room, appended⟩ := cacheAppendData_granted empty sane reserved
              have inside : grown.size + block.bytes.length ≤ grown.data.length := by
                rw [sizeAdd_eq grown.size_le block.bounded] at room
                exact room.trans grown.allocated.ge
              have copied : copyTo grown.data grown.size block.bytes =
                  some (memcpy grown.data grown.size block.bytes) := if_pos inside
              rw [appended]
              exact congrArg (Option.map _) copied

/-- The capacity asked for is what is wanted: doubling does not wrap. -/
theorem wanted_eq_newcap {need : ℕ} (more : e.capacity < need) :
    e.raw.wanted need = e.newcap need := by
  have room := e.addressable
  unfold ptrdiffMax at room
  have doubled : sizeMul e.capacity 2 = 2 * e.capacity := by
    unfold sizeMul
    omega
  have short : ¬ need ≤ e.raw.capacity := not_le.mpr more
  unfold RawEntry.wanted CacheEntry.newcap firstCapacity
  rw [if_neg short, doubled]
  change max need (if e.capacity = 0 then _ else _) = _
  dsimp only [CacheEntry.raw]
  split_ifs <;> omega

/-- `realloc` returns NULL where it wants to, and for an object that is too large. -/
theorem realloc_eq_none_iff {answer : ReallocAnswer} {data : List UInt8} {newcap : ℕ} :
    realloc answer data newcap = none ↔ ¬ (newcap ≤ ptrdiffMax ∧ answer ≠ none) := by
  unfold realloc
  split_ifs with bound
  · simp [bound]
  · simp [bound]

/-- The reservation fails exactly if nothing grants it. -/
theorem reserve_eq_none_iff {need : ℕ} {answer : ReallocAnswer} :
    e.reserve need answer = none ↔ ¬ e.raw.Grants need answer := by
  unfold CacheEntry.reserve RawEntry.Grants
  split
  · rename_i more
    have short : ¬ need ≤ e.raw.capacity := not_le.mpr more
    rw [or_iff_right short, wanted_eq_newcap more, ← @realloc_eq_none_iff answer e.data]
    split
    · rename_i refused
      exact iff_of_true rfl refused
    · rename_i newdata granted
      exact iff_of_false (Option.some_ne_none _) (by simp [granted])
  · rename_i fits
    exact iff_of_false (Option.some_ne_none _) fun none => none (.inl (not_lt.mp fits))

/-- What is granted is the capacity that was wanted. -/
theorem reserve_capacity {need : ℕ} {answer : ReallocAnswer} {grown : CacheEntry}
    (granted : e.reserve need answer = some grown) : grown.capacity = e.raw.wanted need := by
  unfold CacheEntry.reserve at granted
  split at granted
  · rename_i more
    split at granted
    · cases granted
    · obtain rfl := Option.some.inj granted
      exact (wanted_eq_newcap more).symm
  · rename_i fits
    obtain rfl := Option.some.inj granted
    exact (if_pos (not_lt.mp fits)).symm

/-- An append of nothing changes nothing. -/
theorem cacheAppendData_empty {data : Option Block} {answer : ReallocAnswer}
    (empty : payload data = []) : cacheAppendData e data answer = (0, e) := by
  cases data with
  | none => rfl
  | some block =>
      have bytes : block.bytes = [] := empty
      simp [cacheAppendData, bytes]

/-- The size grows by what was appended. -/
theorem Appended.size {next : CacheEntry} {bytes : List UInt8} (appended : Appended e next bytes) :
    next.size = e.size + bytes.length := by
  rw [← next.length_stored, appended.stored, List.length_append, e.length_stored]

/-- **What an append does**: it succeeds and stores its block, in the capacity wanted for
it, or it fails and so does the entry. -/
theorem cacheAppendData_succeeds (e : CacheEntry) (data : Option Block) (answer : ReallocAnswer) :
    (e.raw.Succeeds data answer ∧ ∃ next, cacheAppendData e data answer = (0, next) ∧
      Appended e next (payload data) ∧
        next.capacity = e.raw.wanted (e.size + (payload data).length)) ∨
    (¬ e.raw.Succeeds data answer ∧
      cacheAppendData e data answer = (-1, { e with failed := true })) := by
  by_cases empty : payload data = []
  · have room : e.size + (payload data).length ≤ e.raw.capacity := by
      rw [empty]
      exact e.fits
    exact .inl ⟨.inl empty, e, cacheAppendData_empty empty,
      ⟨by simp [empty], rfl, rfl, rfl, rfl, rfl⟩, (if_pos room).symm⟩
  cases data with
  | none => exact absurd rfl empty
  | some block =>
      have long : block.bytes.length ≠ 0 := by simpa [payload] using empty
      have need : sizeAdd e.size block.bytes.length = e.size + block.bytes.length :=
        sizeAdd_eq e.size_le block.bounded
      cases failed : e.failed with
      | true =>
          have same : e = { e with failed := true } := by ext <;> simp [failed]
          have out : ¬ e.raw.Succeeds (some block) answer := by
            rintro (none | ⟨sane, _⟩)
            · exact empty none
            · exact absurd (failed.symm.trans sane) (by simp)
          refine .inr ⟨out, ?_⟩
          rw [← same]
          simp [cacheAppendData, long, failed]
      | false =>
          cases reserved : e.reserve (sizeAdd e.size block.bytes.length) answer with
          | none =>
              have out : ¬ e.raw.Succeeds (some block) answer := by
                rintro (none | ⟨_, granted⟩)
                · exact empty none
                · rw [need] at reserved
                  exact reserve_eq_none_iff.mp reserved granted
              exact .inr ⟨out, cacheAppendData_refused long failed reserved⟩
          | some grown =>
              obtain ⟨room, ran⟩ := cacheAppendData_granted long failed reserved
              obtain ⟨_, _, stored, key, complete, sane, refcnt, link⟩ := e.reserve_spec reserved
              have granted : e.raw.Grants (e.size + block.bytes.length) answer := by
                by_contra refused
                rw [need, reserve_eq_none_iff.mpr refused] at reserved
                cases reserved
              refine .inl ⟨.inr ⟨failed, granted⟩, grown.fill block room, ran,
                ⟨?_, key, complete, sane, refcnt, link⟩, ?_⟩
              · rw [CacheEntry.stored_fill, stored]
                rfl
              · exact (reserve_capacity reserved).trans (by rw [need]; rfl)

end Agree

/-! ## Sequences of appends -/

/-- One byte over and over again. -/
def repeated (n : ℕ) (byte : UInt8) (bounded : n ≤ ptrdiffMax) : Block :=
  ⟨List.replicate n byte, List.length_replicate.trans_le bounded⟩

theorem length_repeated {n : ℕ} {byte : UInt8} {bounded : n ≤ ptrdiffMax} :
    (repeated n byte bounded).bytes.length = n :=
  List.length_replicate

/-- A call of `cache_append_data`, and what `realloc` would answer it. -/
structure AppendCall where
  data : Option Block
  answer : ReallocAnswer

/-- An entry, and the calls so far with the values they returned. -/
structure Appending where
  entry : RawEntry
  log : List (AppendCall × Int)

namespace Appending

/-- What the calls that returned 0 were given. -/
def accepted (log : List (AppendCall × Int)) : List UInt8 :=
  log.flatMap fun call => if call.2 = 0 then payload call.1.data else []

def step (s : Appending) (call : AppendCall) : Option Appending :=
  (s.entry.append call.data call.answer).map fun done =>
    ⟨done.2, s.log ++ [(call, done.1)]⟩

/-- An entry as `cache_entry_create` returns it. -/
def start (e : CacheEntry) : Appending := ⟨e.raw, []⟩

/-- The entry behind the fields, and what the log says of it. -/
structure Kept (s : Appending) (e : CacheEntry) : Prop where
  raw : s.entry = e.raw
  stored : e.stored = accepted s.log
  refused : ∀ call ∈ s.log, call.2 = -1 → e.failed = true

variable {s next : Appending} {e : CacheEntry}

theorem kept_start {answer : CreateAnswer} {key : CString}
    (created : cacheEntryCreate answer key = some e) : Kept (start e) e := by
  obtain rfl := cacheEntryCreate_eq created
  exact ⟨rfl, rfl, List.forall_mem_nil _⟩

/-- One call. -/
theorem Kept.step (kept : Kept s e) (call : AppendCall) : ∃ next,
    Appending.step s call = some next ∧ Kept next (cacheAppendData e call.data call.answer).2 := by
  refine ⟨⟨(cacheAppendData e call.data call.answer).2.raw,
    s.log ++ [(call, (cacheAppendData e call.data call.answer).1)]⟩, ?_, ?_⟩
  · rw [Appending.step, kept.raw, raw_append]
    rfl
  · obtain ⟨next, ran, appended, _⟩ | ⟨ran, _⟩ := cacheAppendData_spec e call.data call.answer
    · rw [ran]
      refine ⟨rfl, ?_, fun other member minus => ?_⟩
      · rw [appended.stored, kept.stored]
        simp [accepted]
      · rw [appended.failed]
        obtain before | now := List.mem_append.mp member
        · exact kept.refused other before minus
        · obtain rfl := List.mem_singleton.mp now
          cases minus
    · rw [ran]
      refine ⟨rfl, ?_, fun _ _ _ => rfl⟩
      change e.stored = _
      rw [kept.stored]
      simp [accepted]

/-- **The run lemma.** Behind any calls the fields are those of an entry. -/
theorem exists_kept {answer : CreateAnswer} {key : CString}
    (created : cacheEntryCreate answer key = some e)
    (reached : Transition.Reaches step (start e) s) : ∃ e, Kept s e := by
  refine reached.invariant (motive := fun s => ∃ e, Kept s e) ⟨e, kept_start created⟩ ?_
  rintro s call next ⟨e, kept⟩ _ moved
  obtain ⟨other, moved', kept'⟩ := kept.step call
  obtain rfl := Option.some.inj (moved.symm.trans moved')
  exact ⟨_, kept'⟩

/-- The next append is exact and atomic: no sum wraps, the copy stays inside the
allocation, and the call returns 0 and adds its block, in the capacity wanted for it, or
returns -1 and leaves everything but `failed` as it was. Which one it is depends on the
room, on `realloc` and on whether the entry has failed. -/
structure Exact (s : Appending) (data : Option Block) (answer : ReallocAnswer) : Prop where
  need : s.entry.size + (payload data).length < 2 ^ 64
  doubled : s.entry.capacity * 2 < 2 ^ 64
  returns : ∃ value next, s.entry.append data answer = some (value, next) ∧
    next.size ≤ next.capacity ∧ s.entry.stored <+: next.stored ∧
      (value = 0 ∧ next.stored = s.entry.stored ++ payload data ∧
          next.failed = s.entry.failed ∧
          next.capacity = s.entry.wanted (s.entry.size + (payload data).length) ∨
        value = -1 ∧ next = { s.entry with failed := true }) ∧
      (value = 0 ↔ s.entry.Succeeds data answer) ∧
      (s.entry.failed = true → payload data ≠ [] → value = -1 ∧ next = s.entry)

/-- **One call is exact** on the fields of an entry. -/
theorem Kept.exact (kept : Kept s e) (data : Option Block) (answer : ReallocAnswer) :
    Exact s data answer := by
  have bound := e.size_le
  have room := e.addressable
  have long : (payload data).length ≤ ptrdiffMax := by
    cases data with
    | none => exact Nat.zero_le _
    | some block => exact block.bounded
  unfold ptrdiffMax at bound room long
  refine ⟨?_, ?_, ?_⟩
  · rw [kept.raw]
    change e.size + _ < _
    omega
  · rw [kept.raw]
    change e.capacity * 2 < _
    omega
  · rw [kept.raw]
    refine ⟨_, _, raw_append data answer, (cacheAppendData e data answer).2.fits, ?_⟩
    obtain ⟨succeeds, next, ran, appended, capacity⟩ | ⟨fails, ran⟩ :=
      cacheAppendData_succeeds e data answer
    · rw [ran]
      refine ⟨⟨_, appended.stored.symm⟩, .inl ⟨rfl, appended.stored, appended.failed, capacity⟩,
        iff_of_true rfl succeeds, fun failed some => ?_⟩
      have sane : e.failed = false := (succeeds.resolve_left some).1
      exact absurd (sane.symm.trans failed) (by simp)
    · rw [ran]
      refine ⟨List.prefix_refl _, .inr ⟨rfl, rfl⟩, iff_of_false (by simp) fails,
        fun failed _ => ⟨rfl, ?_⟩⟩
      have already : e.failed = true := failed
      rw [CacheEntry.raw, CacheEntry.raw, already]

/-- **`cache_append_data` is an exact, overflow-free and atomic append.** -/
theorem append_exact {answer : CreateAnswer} {key : CString}
    (created : cacheEntryCreate answer key = some e)
    (reached : Transition.Reaches step (start e) s) :
    s.entry.size ≤ s.entry.capacity ∧ s.entry.data.length = s.entry.capacity ∧
      s.entry.stored = accepted s.log ∧ (∀ data answer, Exact s data answer) ∧
        ((∃ call ∈ s.log, call.2 = -1) → s.entry.failed = true) := by
  obtain ⟨e, kept⟩ := exists_kept created reached
  refine ⟨?_, ?_, ?_, kept.exact, ?_⟩
  · rw [kept.raw]
    exact e.fits
  · rw [kept.raw]
    exact e.allocated
  · rw [← kept.stored, kept.raw]
    rfl
  · rintro ⟨call, member, minus⟩
    rw [kept.raw]
    exact kept.refused call member minus

/-! ## Two appends, and a third one without memory -/

section Calls

variable {answer : CreateAnswer} {key : CString} (created : cacheEntryCreate answer key = some e)
  (reached : Transition.Reaches step (start e) s) (block : Block)

include created reached

/-- A call for which `realloc` has memory. -/
theorem exists_granted (sane : s.entry.failed = false) (added : ℕ → UInt8)
    (small : s.entry.wanted (s.entry.stored.length + block.bytes.length) ≤ ptrdiffMax) :
    ∃ next, Transition.Reaches step (start e) next ∧
      next.log = s.log ++ [(⟨some block, some added⟩, 0)] ∧ next.entry.failed = false ∧
        next.entry.stored = s.entry.stored ++ block.bytes ∧
          next.entry.capacity = s.entry.wanted (s.entry.stored.length + block.bytes.length) := by
  obtain ⟨e', kept⟩ := exists_kept created reached
  have size : s.entry.stored.length = s.entry.size := by
    rw [kept.raw]
    exact e'.length_stored
  rw [size] at small ⊢
  obtain ⟨value, next, ran, _, _, outcome, zero, _⟩ :=
    (kept.exact (some block) (some added)).returns
  obtain rfl : value = 0 := zero.mpr (.inr ⟨sane, .inr ⟨small, by simp⟩⟩)
  obtain ⟨_, stored, failed, capacity⟩ := outcome.resolve_right (by simp)
  refine ⟨⟨next, s.log ++ [(⟨some block, some added⟩, 0)]⟩,
    .next reached ⟨some block, some added⟩ ?_, rfl, failed.trans sane, stored, capacity⟩
  rw [step, ran]
  rfl

/-- A call for which there is no room and no memory. -/
theorem exists_refused (full : s.entry.capacity < s.entry.stored.length + block.bytes.length)
    (long : block.bytes ≠ []) : ∃ next, Transition.Reaches step (start e) next ∧
      next.log = s.log ++ [(⟨some block, none⟩, -1)] ∧
        next.entry = { s.entry with failed := true } := by
  obtain ⟨e', kept⟩ := exists_kept created reached
  have size : s.entry.stored.length = s.entry.size := by
    rw [kept.raw]
    exact e'.length_stored
  rw [size] at full
  obtain ⟨value, next, ran, _, _, outcome, zero, _⟩ := (kept.exact (some block) none).returns
  have fails : value ≠ 0 := by
    rintro rfl
    rcases (zero.mp rfl).resolve_left long with ⟨_, room | granted⟩
    · exact absurd room (not_le.mpr full)
    · exact granted.2 rfl
  obtain ⟨rfl, rfl⟩ := outcome.resolve_left fun done => fails done.1
  refine ⟨⟨_, s.log ++ [(⟨some block, none⟩, -1)]⟩, .next reached ⟨some block, none⟩ ?_, rfl, rfl⟩
  rw [step, ran]
  rfl

end Calls

/-- The theorem behind a byte, 64 KiB for which the allocation is doubled, and another
64 KiB for which `realloc` returns NULL. -/
theorem append_exact_run : ∃ s, Transition.Reaches step (start (freshEntry ⟨[107], by decide⟩)) s ∧
    s.log.map Prod.snd = [0, 0, -1] ∧ s.entry.capacity = 131072 ∧ s.entry.failed = true ∧
      s.entry.stored = 97 :: (repeated 65536 98 (by decide)).bytes ∧
        s.entry.stored = accepted s.log ∧ ∀ data answer, Exact s data answer := by
  have created : cacheEntryCreate .ok ⟨[107], by decide⟩ = some (freshEntry ⟨[107], by decide⟩) :=
    rfl
  obtain ⟨s₁, reached₁, log₁, sane₁, stored₁, capacity₁⟩ :=
    exists_granted created .start (repeated 1 97 (by decide)) rfl (fun _ => 0) (by decide)
  replace stored₁ : s₁.entry.stored = [97] := stored₁
  replace capacity₁ : s₁.entry.capacity = 65536 := capacity₁
  have wanted₁ : s₁.entry.wanted (1 + 65536) = 131072 := by
    rw [RawEntry.wanted, capacity₁]
    rfl
  obtain ⟨s₂, reached₂, log₂, sane₂, stored₂, capacity₂⟩ :=
    exists_granted created reached₁ (repeated 65536 98 (by decide)) sane₁ (fun _ => 0) (by
      rw [stored₁, length_repeated]
      exact wanted₁.trans_le (by decide))
  rw [stored₁, length_repeated] at capacity₂
  rw [stored₁] at stored₂
  obtain ⟨s, reached, log, entry⟩ :=
    exists_refused created reached₂ (repeated 65536 98 (by decide)) (by
      rw [capacity₂, stored₂, List.length_append, length_repeated]
      exact wanted₁.trans_lt (by decide)) (by
      rw [← List.length_pos_iff, length_repeated]
      decide)
  obtain ⟨_, _, accepted, exact, _⟩ := append_exact created reached
  refine ⟨s, reached, ?_, ?_, ?_, ?_, accepted, exact⟩
  · rw [log, log₂, log₁]
    rfl
  · rw [entry]
    exact capacity₂.trans wanted₁
  · rw [entry]
  · rw [entry]
    exact stored₂

end Appending

end OperationSystems.Cache
