import OperationSystems.Cache.Entry
import OperationSystems.Foundation.Transition
import OperationSystems.Proxy.Socket

/-!
# Streaming an entry while it is written

`stream_from_cache` copies under `e->lock` and sends outside it, while the writer
appends, reallocates and in the end marks the entry. This file has the loop of
one reader and the run of one writer with any number of readers: whatever the
order of their critical sections, what a reader has sent is a prefix of what is
stored, and a reader that finishes has sent all of it.
-/

namespace OperationSystems.Proxy

open CStrings Cache

/-- `sizeof(tmp)`. -/
def tmpSize : Nat := 4096

/-- What one pass of the loop does under `e->lock`: sleep, leave because the entry
failed or is finished, or copy a chunk to send. -/
inductive StreamPass
  | wait
  | failed
  | finished
  | copied (chunk : List UInt8) (offset : Nat)

/-- Lines 146 to 168. -/
def streamPass (entry : CacheEntry) (offset : Nat) : StreamPass :=
  if offset = entry.size ∧ entry.complete = false ∧ entry.failed = false then .wait
  else if entry.failed = true then .failed
  else if offset = entry.size ∧ entry.complete = true then .finished
  else
    let avail := sizeSub entry.size offset
    let chunk := if avail < tmpSize then avail else tmpSize
    .copied ((entry.data.drop offset).take chunk) (sizeAdd offset chunk)

/-- A pass copies what follows the offset, up to the new one. -/
theorem streamPass_copied {entry : CacheEntry} {offset next : Nat} {chunk : List UInt8}
    (inside : offset ≤ entry.size) (passed : streamPass entry offset = .copied chunk next) :
    entry.stored.take offset ++ chunk = entry.stored.take next ∧ next ≤ entry.size ∧
      offset < next := by
  have bound := entry.size_le
  unfold streamPass at passed
  split_ifs at passed with waits failed finished
  have less : offset < entry.size := by
    refine lt_of_le_of_ne inside fun equal => ?_
    cases done : entry.complete with
    | true => exact finished ⟨equal, done⟩
    | false => exact waits ⟨equal, done, by simpa using failed⟩
  obtain ⟨rfl, rfl⟩ := StreamPass.copied.inj passed
  rw [sizeSub_eq bound inside]
  have short : (if entry.size - offset < tmpSize then entry.size - offset else tmpSize) =
      min (entry.size - offset) tmpSize := by
    rw [min_def]
    split_ifs <;> omega
  have positive : 0 < min (entry.size - offset) tmpSize :=
    lt_min (by omega) (by decide)
  have room : offset + min (entry.size - offset) tmpSize ≤ entry.size := by
    have := Nat.min_le_left (entry.size - offset) tmpSize
    omega
  rw [short, sizeAdd_eq (inside.trans bound) (le_trans (by omega) bound)]
  refine ⟨?_, room, by omega⟩
  rw [CacheEntry.stored, List.take_take, List.take_take, min_eq_left inside, min_eq_left room,
    ← List.take_add]

/-- A pass finishes only on a complete entry that has not failed, at its end. -/
theorem streamPass_finished {entry : CacheEntry} {offset : Nat}
    (passed : streamPass entry offset = .finished) :
    offset = entry.size ∧ entry.complete = true ∧ entry.failed = false := by
  unfold streamPass at passed
  split_ifs at passed with waits failed finished
  exact ⟨finished.1, finished.2, by simpa using failed⟩

/-- A pass sleeps only at the end of an unmarked entry. -/
theorem streamPass_wait {entry : CacheEntry} {offset : Nat}
    (passed : streamPass entry offset = .wait) :
    offset = entry.size ∧ entry.complete = false ∧ entry.failed = false := by
  unfold streamPass at passed
  split_ifs at passed with waits
  exact waits

/-! ## One writer and any number of readers -/

/-- Through which branch a reader left its loop. -/
inductive Exit
  | complete
  | failed
  | sendFailed
  deriving DecidableEq

/-- Where a reader is, with its offset and what its socket has taken so far. -/
inductive Reader
  | away
  | looping (offset : Nat) (sent : List UInt8)
  | waiting (offset : Nat) (sent : List UInt8)
  | sending (offset : Nat) (sent left : List UInt8)
  | gone (exit : Exit) (sent : List UInt8)
  deriving DecidableEq

namespace Reader

/-- The loop's `offset`, 0 outside the loop. -/
def offset : Reader → Nat
  | away | gone _ _ => 0
  | looping offset _ | waiting offset _ | sending offset _ _ => offset

/-- The bytes handed to the socket. -/
def sent : Reader → List UInt8
  | away => []
  | looping _ sent | waiting _ sent | sending _ sent _ | gone _ sent => sent

end Reader

/-- An entry, its writer and its readers. `appended` lists the blocks of all
calls of `cache_append_data` so far, and `writing` says that the entry has not been
marked yet. -/
structure Streaming (ι : Type*) where
  entry : CacheEntry
  appended : List (Option Block)
  writing : Bool
  reader : ι → Reader

/-- What happens next: a critical section of the writer or of a reader, a wake-up
(spurious or not), or a `send`. -/
inductive StreamLabel (ι : Type*)
  | append (data : Option Block) (answer : ReallocAnswer)
  | markComplete
  | markFailed
  | join (reader : ι)
  | pass (reader : ι)
  | wake (reader : ι)
  | send (reader : ι) (answer : SendAnswer)

namespace Streaming

variable {ι : Type*}

/-- A new entry whose readers have not come yet. -/
def start (key : CString) : Streaming ι :=
  { entry := freshEntry key, appended := [], writing := true, reader := fun _ => .away }

def become [DecidableEq ι] (s : Streaming ι) (reader : ι) (next : Reader) : Streaming ι :=
  { s with reader := Function.update s.reader reader next }

/-- A reader after a pass under the lock. -/
def afterPass (offset : Nat) (sent : List UInt8) : StreamPass → Reader
  | .wait => .waiting offset sent
  | .failed => .gone .failed sent
  | .finished => .gone .complete sent
  | .copied chunk next =>
      match sendAllStart chunk with
      | .sending left => .sending next sent left
      | .returned | .error => .looping next sent

/-- A reader after a `send`. -/
def afterSend (offset : Nat) (sent : List UInt8) : SendAll → Reader
  | .sending left => .sending offset sent left
  | .returned => .looping offset sent
  | .error => .gone .sendFailed sent

def step [DecidableEq ι] (s : Streaming ι) : StreamLabel ι → Option (Streaming ι)
  | .append data answer =>
      if s.writing then some
        { s with
          entry := (cacheAppendData s.entry data answer).2
          appended := s.appended ++ [data] }
      else none
  | .markComplete =>
      if s.writing then some { s with entry := cacheMarkComplete s.entry, writing := false }
      else none
  | .markFailed =>
      if s.writing then some { s with entry := cacheMarkFailed s.entry, writing := false }
      else none
  | .join reader =>
      match s.reader reader with
      | .away => some (s.become reader (.looping 0 []))
      | _ => none
  | .pass reader =>
      match s.reader reader with
      | .looping offset sent =>
          some (s.become reader (afterPass offset sent (streamPass s.entry offset)))
      | _ => none
  | .wake reader =>
      match s.reader reader with
      | .waiting offset sent => some (s.become reader (.looping offset sent))
      | _ => none
  | .send reader answer =>
      match s.reader reader with
      | .sending offset sent left =>
          some (s.become reader
            (afterSend offset (sent ++ taken left answer) (sendAll left answer)))
      | _ => none

/-- `send` takes some positive number of bytes or fails. -/
def SendTakes (_ : Streaming ι) : StreamLabel ι → Prop
  | .send _ answer => answer ≠ .took 0
  | _ => True

/-- What holds of a reader of an entry whose stored bytes and final content are
given. -/
def ReaderSound (s : Streaming ι) : Reader → Prop
  | .away => True
  | .looping offset sent | .waiting offset sent =>
      offset ≤ s.entry.size ∧ sent = s.entry.stored.take offset
  | .sending offset sent left =>
      offset ≤ s.entry.size ∧ sent ++ left = s.entry.stored.take offset
  | .gone .complete sent => s.writing = false ∧ s.entry.failed = false ∧ sent = s.entry.stored
  | .gone _ sent => sent <+: s.entry.stored

/-- The invariant of a run. -/
structure Sound (s : Streaming ι) : Prop where
  whole : s.entry.failed = false → s.entry.stored = s.appended.flatMap payload
  unmarked : s.writing = true → s.entry.complete = false
  readers : ∀ reader, s.ReaderSound (s.reader reader)

/-- A longer stored text, with the marks of a finished reader unchanged, suits every
reader. -/
theorem ReaderSound.mono {s t : Streaming ι} {reader : Reader} (sound : s.ReaderSound reader)
    (longer : s.entry.stored <+: t.entry.stored)
    (finished : s.writing = false → s.entry.failed = false →
      t.writing = false ∧ t.entry.failed = false ∧ t.entry.stored = s.entry.stored) :
    t.ReaderSound reader := by
  have larger : s.entry.size ≤ t.entry.size := by
    rw [← s.entry.length_stored, ← t.entry.length_stored]
    exact longer.length_le
  have kept : ∀ offset ≤ s.entry.size,
      t.entry.stored.take offset = s.entry.stored.take offset := by
    intro offset inside
    obtain ⟨more, text⟩ := longer
    rw [← text, List.take_append_of_le_length (by rw [s.entry.length_stored]; exact inside)]
  cases reader with
  | away => trivial
  | looping offset sent => exact ⟨sound.1.trans larger, sound.2.trans (kept offset sound.1).symm⟩
  | waiting offset sent => exact ⟨sound.1.trans larger, sound.2.trans (kept offset sound.1).symm⟩
  | sending offset sent left =>
      exact ⟨sound.1.trans larger, sound.2.trans (kept offset sound.1).symm⟩
  | gone exit sent =>
      cases exit with
      | complete =>
          obtain ⟨ended, sane, same⟩ := finished sound.1 sound.2.1
          exact ⟨ended, sane, sound.2.2.trans same.symm⟩
      | failed => exact List.IsPrefix.trans sound longer
      | sendFailed => exact List.IsPrefix.trans sound longer

/-- What a reader has sent is a front of what is stored. -/
theorem ReaderSound.sent_is_front {s : Streaming ι} {reader : Reader}
    (sound : s.ReaderSound reader) : reader.sent <+: s.entry.stored := by
  cases reader with
  | away => exact List.nil_prefix
  | looping offset sent => exact sound.2 ▸ List.take_prefix _ _
  | waiting offset sent => exact sound.2 ▸ List.take_prefix _ _
  | sending offset sent left =>
      exact List.IsPrefix.trans ⟨left, sound.2⟩ (List.take_prefix _ _)
  | gone exit sent =>
      cases exit with
      | complete => exact sound.2.2 ▸ List.prefix_refl _
      | failed => exact sound
      | sendFailed => exact sound

theorem Sound.start (key : CString) : (Streaming.start key : Streaming ι).Sound :=
  ⟨fun _ => rfl, fun _ => rfl, fun _ => trivial⟩

/-- While the writer is at work, a longer stored text suits every reader. -/
theorem Sound.readers_mono {s t : Streaming ι} (sound : s.Sound) (writing : s.writing = true)
    (longer : s.entry.stored <+: t.entry.stored) (reader : ι) :
    t.ReaderSound (s.reader reader) :=
  (sound.readers reader).mono longer fun ended => absurd (writing.symm.trans ended) (by decide)

/-- A reader's own section under the lock. -/
theorem Sound.afterPass {s : Streaming ι} (sound : s.Sound) {offset : Nat} {sent : List UInt8}
    (inside : offset ≤ s.entry.size) (same : sent = s.entry.stored.take offset) :
    s.ReaderSound (Streaming.afterPass offset sent (streamPass s.entry offset)) := by
  have whole : s.entry.stored.take s.entry.size = s.entry.stored :=
    List.take_of_length_le (by rw [s.entry.length_stored])
  cases passed : streamPass s.entry offset with
  | wait => exact ⟨inside, same⟩
  | failed =>
      rw [same]
      exact List.take_prefix _ _
  | finished =>
      obtain ⟨rfl, done, sane⟩ := streamPass_finished passed
      refine ⟨?_, sane, same.trans whole⟩
      cases writing : s.writing with
      | false => rfl
      | true => exact absurd (done.symm.trans (sound.unmarked writing)) (by decide)
  | copied chunk next =>
      obtain ⟨text, room, _⟩ := streamPass_copied inside passed
      rw [← same] at text
      simp only [Streaming.afterPass, sendAllStart]
      split_ifs with empty
      · exact ⟨room, by simpa [empty] using text⟩
      · exact ⟨room, text⟩

/-- A `send` that takes some bytes moves them from the copied chunk to the socket. -/
theorem Sound.afterSend {s : Streaming ι} {offset : Nat} {sent left : List UInt8}
    {answer : SendAnswer} (takes : answer ≠ .took 0) (inside : offset ≤ s.entry.size)
    (text : sent ++ left = s.entry.stored.take offset) :
    s.ReaderSound (Streaming.afterSend offset (sent ++ taken left answer)
      (sendAll left answer)) := by
  have moved := @sendAll_spec left answer takes
  cases result : sendAll left answer with
  | sending rest =>
      rw [result] at moved
      exact ⟨inside, by rw [List.append_assoc, moved, text]⟩
  | returned =>
      rw [result] at moved
      exact ⟨inside, by rw [moved, text]⟩
  | error =>
      rw [result] at moved
      simp only [moved, List.append_nil]
      refine List.IsPrefix.trans ⟨left, text⟩ (List.take_prefix _ _)

variable [DecidableEq ι]

/-- A reader goes on to a place that suits it. -/
theorem Sound.become {s : Streaming ι} (sound : s.Sound) (reader : ι) {next : Reader}
    (here : s.ReaderSound next) : (s.become reader next).Sound := by
  have kept : ∀ r, s.ReaderSound r → (s.become reader next).ReaderSound r := fun r sound =>
    sound.mono (List.prefix_refl _) fun ended sane => ⟨ended, sane, rfl⟩
  refine ⟨sound.whole, sound.unmarked, fun other => ?_⟩
  change (s.become reader next).ReaderSound (Function.update s.reader reader next other)
  by_cases same : other = reader
  · rw [same, Function.update_self]
    exact kept next here
  · rw [Function.update_of_ne same]
    exact kept _ (sound.readers other)

/-- Every step whose `send` takes bytes keeps the invariant. -/
theorem Sound.step {s t : Streaming ι} {label : StreamLabel ι} (sound : s.Sound)
    (takes : s.SendTakes label) (stepped : s.step label = some t) : t.Sound := by
  cases label with
  | append data answer =>
      simp only [Streaming.step] at stepped
      split_ifs at stepped with writing
      obtain rfl := Option.some.inj stepped
      have frame := cacheAppendData_frame s.entry data answer
      rcases cacheAppendData_spec s.entry data answer with ⟨next, ran, appended, _⟩ | ⟨ran, _⟩
      · refine ⟨fun sane => ?_, fun _ => ?_, fun reader => ?_⟩
        · simp only [ran] at sane ⊢
          rw [appended.stored, sound.whole (appended.failed ▸ sane)]
          simp
        · simpa only [frame.2.1] using sound.unmarked writing
        · refine sound.readers_mono writing ?_ reader
          simp only [ran]
          rw [appended.stored]
          exact List.prefix_append _ _
      · refine ⟨fun sane => ?_, fun _ => ?_, fun reader => ?_⟩
        · rw [ran] at sane
          cases sane
        · simpa only [frame.2.1] using sound.unmarked writing
        · refine sound.readers_mono writing ?_ reader
          simp only [ran]
          exact List.prefix_refl _
  | markComplete =>
      simp only [Streaming.step] at stepped
      split_ifs at stepped with writing
      obtain rfl := Option.some.inj stepped
      exact ⟨sound.whole, fun ended => absurd ended Bool.false_ne_true,
        sound.readers_mono writing (List.prefix_refl _)⟩
  | markFailed =>
      simp only [Streaming.step] at stepped
      split_ifs at stepped with writing
      obtain rfl := Option.some.inj stepped
      exact ⟨fun sane => absurd sane (by simp [cacheMarkFailed]),
        fun ended => absurd ended Bool.false_ne_true,
        sound.readers_mono writing (List.prefix_refl _)⟩
  | join reader =>
      simp only [Streaming.step] at stepped
      split at stepped
      · obtain rfl := Option.some.inj stepped
        exact sound.become reader ⟨Nat.zero_le _, List.take_zero.symm⟩
      · cases stepped
  | pass reader =>
      simp only [Streaming.step] at stepped
      split at stepped
      · rename_i offset sent at_
        obtain rfl := Option.some.inj stepped
        have here := sound.readers reader
        rw [at_] at here
        exact sound.become reader (sound.afterPass here.1 here.2)
      · cases stepped
  | wake reader =>
      simp only [Streaming.step] at stepped
      split at stepped
      · rename_i offset sent at_
        obtain rfl := Option.some.inj stepped
        have here := sound.readers reader
        rw [at_] at here
        exact sound.become reader here
      · cases stepped
  | send reader answer =>
      simp only [Streaming.step] at stepped
      split at stepped
      · rename_i offset sent left at_
        obtain rfl := Option.some.inj stepped
        have here := sound.readers reader
        rw [at_] at here
        exact sound.become reader (Sound.afterSend takes here.1 here.2)
      · cases stepped

/-- **Readers get exactly what the writer stored.** In every state of a run in
which every `send` takes bytes or fails, what a reader has sent is a prefix of what
is stored, its offset is at most the size, and a reader that left because the entry
was complete has sent all appended blocks, in order. -/
theorem readers_get_what_was_stored {key : CString} {s : Streaming ι}
    (reached : Transition.ReachesBy step SendTakes (start key) s) (reader : ι) :
    (s.reader reader).sent <+: s.entry.stored ∧ (s.reader reader).offset ≤ s.entry.size ∧
      ∀ sent, s.reader reader = .gone .complete sent →
        s.writing = false ∧ sent = s.appended.flatMap payload := by
  have sound : s.Sound := reached.invariant (Sound.start key)
    fun _ _ _ before takes stepped => before.step takes stepped
  have here := sound.readers reader
  refine ⟨here.sent_is_front, ?_⟩
  cases place : s.reader reader with
  | away => exact ⟨Nat.zero_le _, fun _ gone => by cases gone⟩
  | looping offset sent =>
      rw [place] at here
      exact ⟨here.1, fun _ gone => by cases gone⟩
  | waiting offset sent =>
      rw [place] at here
      exact ⟨here.1, fun _ gone => by cases gone⟩
  | sending offset sent left =>
      rw [place] at here
      exact ⟨here.1, fun _ gone => by cases gone⟩
  | gone exit sent =>
      rw [place] at here
      refine ⟨Nat.zero_le _, fun other same => ?_⟩
      obtain ⟨rfl, rfl⟩ := Reader.gone.inj same
      exact ⟨here.1, here.2.2.trans (sound.whole here.2.1)⟩

/-- The theorem at a run with one block and one reader, who sends it in two parts. -/
theorem readers_get_what_was_stored_run :
    ∃ s : Streaming Bool, Transition.run step (start ⟨[107], by decide⟩)
      [.append (some ⟨[104, 105], by decide⟩) (some fun _ => 0), .join true, .pass true,
        .send true (.took 1), .send true .interrupted, .send true (.took 1), .pass true,
        .markComplete, .wake true, .pass true] = some s ∧
      s.writing = false ∧ s.appended.flatMap payload = [104, 105] := by
  obtain ⟨s, ran, same⟩ := Option.map_eq_some_iff.mp
    (show (Transition.run step (start ⟨[107], by decide⟩ : Streaming Bool)
      [.append (some ⟨[104, 105], by decide⟩) (some fun _ => 0), .join true, .pass true,
        .send true (.took 1), .send true .interrupted, .send true (.took 1), .pass true,
        .markComplete, .wake true, .pass true]).map (fun s => s.reader true) =
          some (.gone .complete [104, 105]) by decide +kernel)
  have reached : Transition.ReachesBy step SendTakes _ s := .of_run ran (by simp [SendTakes]) .start
  obtain ⟨ended, text⟩ := (readers_get_what_was_stored reached true).2.2 _ same
  exact ⟨s, ran, ended, text.symm⟩

end Streaming

end OperationSystems.Proxy
