import OperationSystems.Proxy.Handler

/-!
# The writer's relay loop

Lines 367 to 429 of `handle_client`: receive a block from the origin, append it to the
entry, and pass it on to the client as long as that one takes it. The loop is driven by the
answers of `recv`, of `realloc` and of `send`. What is cached, and how the entry is marked,
depends only on the first two; what the client gets is a front of what is cached.
-/

namespace OperationSystems.Proxy

open Cache

/-- Through which branch the loop is left. -/
inductive RelayEnd
  | endOfStream
  | reset
  | recvFailed
  | appendFailed
  deriving DecidableEq

/-- Where the writer is: at `recv`, at `cache_append_data`, in `send_all`, at the mark, or
behind the loop. -/
inductive RelayPoint
  | receiving
  | appending (block : Block)
  | relaying (left : List UInt8)
  | marking (how : RelayEnd) (complete : Bool)
  | ended (how : RelayEnd)
  deriving DecidableEq

/-- What the next call answers. -/
inductive RelayLabel
  | recv (answer : RecvAnswer)
  | append (answer : ReallocAnswer)
  | send (answer : SendAnswer)
  | mark

/-- The entry and the variables of the loop, with the blocks that were received and the
bytes that the client's socket has taken. -/
structure Relay where
  entry : CacheEntry
  total : Nat
  clientAlive : Bool
  point : RelayPoint
  received : List (List UInt8)
  client : List UInt8

namespace Relay

/-- In front of the loop. -/
def start (e : CacheEntry) : Relay where
  entry := e
  total := 0
  clientAlive := true
  point := .receiving
  received := []
  client := []

/-- Lines 372 to 404. -/
def afterRecv (s : Relay) : RecvAnswer → Option Relay
  | .interrupted => some s
  | .reset => some { s with point := .marking .reset (0 < s.total) }
  | .failed => some { s with point := .marking .recvFailed false }
  | .closed => some { s with point := .marking .endOfStream true }
  | .bytes received => (servBlock received).map fun block =>
      { s with
        total := sizeAdd s.total block.bytes.length
        received := s.received ++ [block.bytes]
        point := .appending block }

/-- Lines 406 to 413. -/
def afterAppend (s : Relay) (block : Block) (answer : ReallocAnswer) : Relay :=
  { s with
    entry := (cacheAppendData s.entry (some block) answer).2
    point :=
      if (cacheAppendData s.entry (some block) answer).1 ≠ 0 then .marking .appendFailed false
      else if s.clientAlive then .relaying block.bytes
      else .receiving }

/-- Lines 415 to 428, after one `send`. -/
def afterSend (s : Relay) (left : List UInt8) (answer : SendAnswer) : Relay :=
  { s with
    client := s.client ++ taken left answer
    clientAlive := s.clientAlive && sendAll left answer ≠ .error
    point := match sendAll left answer with
      | .sending left => .relaying left
      | .returned | .error => .receiving }

/-- `cache_mark_complete` or `cache_mark_failed`, and the `break`. -/
def afterMark (s : Relay) (how : RelayEnd) (complete : Bool) : Relay :=
  { s with
    entry := if complete then cacheMarkComplete s.entry else cacheMarkFailed s.entry
    point := .ended how }

def step (s : Relay) : RelayLabel → Option Relay
  | .recv answer =>
      match s.point with
      | .receiving => s.afterRecv answer
      | _ => none
  | .append answer =>
      match s.point with
      | .appending block => some (s.afterAppend block answer)
      | _ => none
  | .send answer =>
      match s.point with
      | .relaying left => some (s.afterSend left answer)
      | _ => none
  | .mark =>
      match s.point with
      | .marking how complete => some (s.afterMark how complete)
      | _ => none

variable {s t : Relay} {label : RelayLabel}

/-- What a step does. -/
theorem step_cases (stepped : s.step label = some t) :
    (∃ answer, label = .recv answer ∧ s.point = .receiving ∧ s.afterRecv answer = some t) ∨
      (∃ block answer, label = .append answer ∧ s.point = .appending block ∧
        t = s.afterAppend block answer) ∨
      (∃ left answer, label = .send answer ∧ s.point = .relaying left ∧
        t = s.afterSend left answer) ∨
      ∃ how complete, label = .mark ∧ s.point = .marking how complete ∧
        t = s.afterMark how complete := by
  cases label with
  | recv answer =>
      simp only [step] at stepped
      split at stepped
      · rename_i here
        exact .inl ⟨answer, rfl, here, stepped⟩
      · cases stepped
  | append answer =>
      simp only [step] at stepped
      split at stepped
      · rename_i block here
        exact .inr (.inl ⟨block, answer, rfl, here, (Option.some.inj stepped).symm⟩)
      · cases stepped
  | send answer =>
      simp only [step] at stepped
      split at stepped
      · rename_i left here
        exact .inr (.inr (.inl ⟨left, answer, rfl, here, (Option.some.inj stepped).symm⟩))
      · cases stepped
  | mark =>
      simp only [step] at stepped
      split at stepped
      · rename_i how complete here
        exact .inr (.inr (.inr ⟨how, complete, rfl, here, (Option.some.inj stepped).symm⟩))
      · cases stepped

/-- What `recv` leads to. -/
theorem afterRecv_cases {answer : RecvAnswer} (received : s.afterRecv answer = some t) :
    t = s ∨ t = { s with point := .marking .reset (0 < s.total) } ∨
      t = { s with point := .marking .recvFailed false } ∨
      t = { s with point := .marking .endOfStream true } ∨
      ∃ block : Block, t = { s with
        total := sizeAdd s.total block.bytes.length
        received := s.received ++ [block.bytes]
        point := .appending block } := by
  cases answer with
  | interrupted => exact .inl (Option.some.inj received).symm
  | reset => exact .inr (.inl (Option.some.inj received).symm)
  | failed => exact .inr (.inr (.inl (Option.some.inj received).symm))
  | closed => exact .inr (.inr (.inr (.inl (Option.some.inj received).symm)))
  | bytes bytes =>
      obtain ⟨block, _, rfl⟩ := Option.map_eq_some_iff.mp received
      exact .inr (.inr (.inr (.inr ⟨block, rfl⟩)))

/-! ## What is cached -/

/-- Neither mark is set. -/
def Unmarked (e : CacheEntry) : Prop := e.complete = false ∧ e.failed = false

/-- The answer of the origin counts as complete. -/
def Completes (how : RelayEnd) (received : List (List UInt8)) : Prop :=
  how = .endOfStream ∨ how = .reset ∧ received.flatten ≠ []

/-- All received blocks are stored, but the last one where it could not be appended. -/
def Stores (e : CacheEntry) (how : RelayEnd) (received : List (List UInt8)) : Prop :=
  e.stored = (if how = .appendFailed then received.dropLast else received).flatten

/-- What is stored and marked at a point of the loop. -/
def Caches (e : CacheEntry) (received : List (List UInt8)) : RelayPoint → Prop
  | .receiving | .relaying _ => e.stored = received.flatten ∧ Unmarked e
  | .appending block =>
      (∃ before, received = before ++ [block.bytes] ∧ e.stored = before.flatten) ∧ Unmarked e
  | .marking how complete => Stores e how received ∧ e.complete = false ∧
      (complete = true ↔ Completes how received) ∧ (complete = true → e.failed = false)
  | .ended how => Stores e how received ∧ (e.complete = true ↔ Completes how received) ∧
      (e.failed = true ↔ ¬ Completes how received)

/-- The invariant of the loop. -/
structure Sound (s : Relay) : Prop where
  caches : Caches s.entry s.received s.point
  total : s.total = s.received.flatten.length

/-- An entry nothing was appended to. -/
structure Fresh (e : CacheEntry) : Prop where
  empty : e.size = 0
  unmarked : Unmarked e

theorem Sound.start {e : CacheEntry} (fresh : Fresh e) : (start e).Sound where
  caches := by
    refine ⟨?_, fresh.unmarked⟩
    change e.data.take e.size = []
    rw [fresh.empty, List.take_zero]
  total := rfl

/-- As long as all blocks are stored, their bytes can be counted. -/
theorem Sound.total_le (sound : s.Sound) (whole : s.entry.stored = s.received.flatten) :
    s.total ≤ ptrdiffMax := by
  rw [sound.total, ← whole, s.entry.length_stored]
  exact s.entry.size_le

theorem Sound.afterRecv {answer : RecvAnswer} (sound : s.Sound) (here : s.point = .receiving)
    (received : s.afterRecv answer = some t) : t.Sound := by
  have caches := sound.caches
  rw [here] at caches
  obtain ⟨whole, unmarked⟩ := caches
  have stores : ∀ how, how ≠ .appendFailed → Stores s.entry how s.received := by
    intro how other
    unfold Stores
    rw [if_neg other, whole]
  obtain rfl | rfl | rfl | rfl | ⟨block, rfl⟩ := afterRecv_cases received
  · exact sound
  · refine ⟨⟨stores .reset (by decide), unmarked.1, ?_, fun _ => unmarked.2⟩, sound.total⟩
    change decide (0 < s.total) = true ↔ Completes .reset s.received
    rw [decide_eq_true_iff, sound.total, List.length_pos_iff]
    exact ⟨fun some => .inr ⟨rfl, some⟩, fun completes => completes.elim (by simp) And.right⟩
  · refine ⟨⟨stores .recvFailed (by decide), unmarked.1, ?_, fun _ => unmarked.2⟩, sound.total⟩
    simp [Completes]
  · refine ⟨⟨stores .endOfStream (by decide), unmarked.1, ?_, fun _ => unmarked.2⟩, sound.total⟩
    simp [Completes]
  · refine ⟨⟨⟨s.received, rfl, whole⟩, unmarked⟩, ?_⟩
    change sizeAdd s.total block.bytes.length = (s.received ++ [block.bytes]).flatten.length
    rw [sizeAdd_eq (sound.total_le whole) block.bounded, sound.total]
    simp

theorem Sound.afterAppend {block : Block} (sound : s.Sound) (here : s.point = .appending block)
    (answer : ReallocAnswer) : (s.afterAppend block answer).Sound := by
  have caches := sound.caches
  rw [here] at caches
  obtain ⟨⟨before, split, stored⟩, unmarked⟩ := caches
  refine ⟨?_, sound.total⟩
  unfold Relay.afterAppend
  obtain ⟨next, ran, appended, _⟩ | ⟨ran, _⟩ := cacheAppendData_spec s.entry (some block) answer
  · have whole : next.stored = s.received.flatten := by
      rw [appended.stored, stored, split]
      simp [payload]
    have clean : Unmarked next :=
      ⟨appended.complete.trans unmarked.1, appended.failed.trans unmarked.2⟩
    simp only [ran, ne_eq, not_true_eq_false, ↓reduceIte]
    split_ifs
    · exact ⟨whole, clean⟩
    · exact ⟨whole, clean⟩
  · have refused : (-1 : Int) ≠ 0 := by decide
    simp only [ran, ne_eq, refused, not_false_eq_true, ↓reduceIte]
    refine ⟨?_, unmarked.1, by simp [Completes], fun complete => by cases complete⟩
    unfold Stores
    rw [if_pos rfl, split, List.dropLast_concat]
    exact stored

theorem Sound.afterSend {left : List UInt8} (sound : s.Sound) (here : s.point = .relaying left)
    (answer : SendAnswer) : (s.afterSend left answer).Sound := by
  have caches := sound.caches
  rw [here] at caches
  refine ⟨?_, sound.total⟩
  unfold Relay.afterSend
  split
  · exact caches
  · exact caches
  · exact caches

theorem Sound.afterMark {how : RelayEnd} {complete : Bool} (sound : s.Sound)
    (here : s.point = .marking how complete) : (s.afterMark how complete).Sound := by
  have caches := sound.caches
  rw [here] at caches
  obtain ⟨stores, unfinished, completes, sane⟩ := caches
  refine ⟨?_, sound.total⟩
  unfold Relay.afterMark
  cases complete with
  | true =>
      refine ⟨stores, iff_of_true rfl (completes.mp rfl), ?_⟩
      refine iff_of_false ?_ (not_not_intro (completes.mp rfl))
      change ¬ s.entry.failed = true
      rw [sane rfl]
      decide
  | false =>
      have never : ¬ Completes how s.received := fun done => by cases completes.mpr done
      refine ⟨stores, iff_of_false ?_ never, iff_of_true rfl never⟩
      change ¬ s.entry.complete = true
      rw [unfinished]
      decide

/-- Every step keeps the invariant. -/
theorem Sound.step (sound : s.Sound) (stepped : s.step label = some t) : t.Sound := by
  obtain ⟨answer, rfl, here, received⟩ | ⟨block, answer, rfl, here, rfl⟩ |
    ⟨left, answer, rfl, here, rfl⟩ | ⟨how, complete, rfl, here, rfl⟩ := step_cases stepped
  · exact sound.afterRecv here received
  · exact sound.afterAppend here answer
  · exact sound.afterSend here answer
  · exact sound.afterMark here

/-- **The run lemma.** What is stored, counted and marked fits together at every point of
the loop. -/
theorem Sound.of_reaches {e : CacheEntry} (fresh : Fresh e)
    (reached : Transition.Reaches Relay.step (Relay.start e) s) : s.Sound :=
  reached.invariant (Sound.start fresh) fun _ _ _ before _ stepped => before.step stepped

/-! ## What the client gets -/

/-- No `send` answers 0. -/
def SendTakes (_ : Relay) : RelayLabel → Prop
  | .send answer => answer ≠ .took 0
  | _ => True

/-- What the client's socket has taken at a point of the loop. -/
def Passed (s : Relay) : RelayPoint → Prop
  | .receiving | .appending _ =>
      s.client <+: s.entry.stored ∧ (s.clientAlive = true → s.client = s.entry.stored)
  | .relaying left => s.clientAlive = true ∧ s.client ++ left = s.entry.stored
  | .marking _ _ | .ended _ => s.client <+: s.entry.stored

theorem Passed.start (e : CacheEntry) (fresh : Fresh e) :
    (start e).Passed (start e).point := by
  have nothing : e.stored = [] := by
    rw [CacheEntry.stored, fresh.empty, List.take_zero]
  exact ⟨List.nil_prefix, fun _ => nothing.symm⟩

/-- What is received is still to be passed on. -/
theorem Passed.afterRecv {answer : RecvAnswer} (passed : s.Passed s.point)
    (here : s.point = .receiving) (received : s.afterRecv answer = some t) :
    t.Passed t.point := by
  have front := passed
  rw [here] at front
  obtain rfl | rfl | rfl | rfl | ⟨block, rfl⟩ := afterRecv_cases received
  · exact passed
  · exact front.1
  · exact front.1
  · exact front.1
  · exact front

/-- What is stored is passed on next, if the client is alive. -/
theorem Passed.afterAppend {block : Block} (passed : s.Passed s.point)
    (here : s.point = .appending block) (answer : ReallocAnswer) :
    (s.afterAppend block answer).Passed (s.afterAppend block answer).point := by
  rw [here] at passed
  obtain ⟨front, all⟩ := passed
  unfold Relay.afterAppend
  obtain ⟨next, ran, appended, _⟩ | ⟨ran, _⟩ := cacheAppendData_spec s.entry (some block) answer
  · have longer : next.stored = s.entry.stored ++ block.bytes := appended.stored
    simp only [ran, ne_eq, not_true_eq_false, ↓reduceIte]
    split_ifs with alive
    · refine ⟨alive, ?_⟩
      change s.client ++ block.bytes = next.stored
      rw [longer, all alive]
    · refine ⟨?_, fun now => absurd now alive⟩
      change s.client <+: next.stored
      rw [longer]
      exact front.trans (List.prefix_append _ _)
  · have refused : (-1 : Int) ≠ 0 := by decide
    simp only [ran, ne_eq, refused, not_false_eq_true, ↓reduceIte]
    exact front

/-- A `send` passes on the next bytes. -/
theorem Passed.afterSend {left : List UInt8} (passed : s.Passed s.point)
    (here : s.point = .relaying left) {answer : SendAnswer} (takes : answer ≠ .took 0) :
    (s.afterSend left answer).Passed (s.afterSend left answer).point := by
  rw [here] at passed
  obtain ⟨alive, text⟩ := passed
  have moved := @sendAll_spec left answer takes
  unfold Relay.afterSend
  cases result : sendAll left answer with
  | sending rest =>
      rw [result] at moved
      refine ⟨by simp [alive], ?_⟩
      change (s.client ++ taken left answer) ++ rest = s.entry.stored
      rw [List.append_assoc, moved, text]
  | returned =>
      rw [result] at moved
      have all : s.client ++ taken left answer = s.entry.stored := by rw [moved, text]
      exact ⟨all ▸ List.prefix_refl _, fun _ => all⟩
  | error =>
      rw [result] at moved
      refine ⟨?_, fun now => by simp at now⟩
      change s.client ++ taken left answer <+: s.entry.stored
      rw [moved, List.append_nil]
      exact ⟨left, text⟩

/-- **The step lemma.** The client gets what is stored, in order, as long as it takes it. -/
theorem Passed.step (passed : s.Passed s.point) (takes : s.SendTakes label)
    (stepped : s.step label = some t) : t.Passed t.point := by
  obtain ⟨answer, rfl, here, received⟩ | ⟨block, answer, rfl, here, rfl⟩ |
    ⟨left, answer, rfl, here, rfl⟩ | ⟨how, complete, rfl, here, rfl⟩ := step_cases stepped
  · exact passed.afterRecv here received
  · exact passed.afterAppend here answer
  · exact passed.afterSend here takes
  · rw [here] at passed
    cases complete with
    | true => exact passed
    | false => exact passed

/-- What the client has got is a front of what is cached. -/
theorem Passed.client_is_front (passed : s.Passed s.point) : s.client <+: s.entry.stored := by
  cases here : s.point with
  | receiving => exact (here ▸ passed : s.Passed .receiving).1
  | appending block => exact (here ▸ passed : s.Passed (.appending block)).1
  | relaying left => exact ⟨left, (here ▸ passed : s.Passed (.relaying left)).2⟩
  | marking how complete => exact (here ▸ passed : s.Passed (.marking how complete))
  | ended how => exact (here ▸ passed : s.Passed (.ended how))

/-- The client has got a front of what is stored. -/
theorem client_front {e : CacheEntry} (fresh : Fresh e)
    (reached : Transition.ReachesBy Relay.step SendTakes (Relay.start e) s) :
    s.client <+: s.entry.stored := by
  have passed : s.Passed s.point := by
    refine reached.invariant (motive := fun s => s.Passed s.point) (Passed.start e fresh) ?_
    exact fun _ _ _ before takes stepped => before.step takes stepped
  exact passed.client_is_front

/-- The client is not sent anything any more. -/
def Silent (s : Relay) : Prop := s.clientAlive = false ∧ ∀ left, s.point ≠ .relaying left

/-- Nothing is sent to a client that is gone. -/
theorem Silent.step (silent : s.Silent) (stepped : s.step label = some t) :
    t.Silent ∧ t.client = s.client := by
  obtain ⟨dead, away⟩ := silent
  obtain ⟨answer, rfl, here, received⟩ | ⟨block, answer, rfl, here, rfl⟩ |
    ⟨left, answer, rfl, here, rfl⟩ | ⟨how, complete, rfl, here, rfl⟩ := step_cases stepped
  · obtain rfl | rfl | rfl | rfl | ⟨block, rfl⟩ := afterRecv_cases received
    · exact ⟨⟨dead, away⟩, rfl⟩
    · exact ⟨⟨dead, by simp⟩, rfl⟩
    · exact ⟨⟨dead, by simp⟩, rfl⟩
    · exact ⟨⟨dead, by simp⟩, rfl⟩
    · exact ⟨⟨dead, by simp⟩, rfl⟩
  · refine ⟨⟨dead, fun left => ?_⟩, rfl⟩
    simp only [Relay.afterAppend, dead, Bool.false_eq_true, ↓reduceIte]
    split_ifs
    · simp
    · simp
  · exact absurd here (away left)
  · exact ⟨⟨dead, by simp [Relay.afterMark]⟩, rfl⟩

/-- A failed `send` leaves the client as it is, and is the last one. -/
theorem silent_of_failed (stepped : s.step (.send .failed) = some t) :
    t.Silent ∧ t.client = s.client := by
  obtain ⟨_, other, _⟩ | ⟨_, _, other, _⟩ | ⟨left, answer, same, here, rfl⟩ |
    ⟨_, _, other, _⟩ := step_cases stepped
  · cases other
  · cases other
  · obtain rfl := RelayLabel.send.inj same
    refine ⟨⟨?_, fun left => ?_⟩, List.append_nil _⟩
    · simp [Relay.afterSend, sendAll]
    · simp [Relay.afterSend, sendAll]
  · cases other

theorem Silent.reaches (silent : s.Silent) (reached : Transition.Reaches Relay.step s t) :
    t.client = s.client ∧ ∀ answer, t.step (.send answer) = none := by
  have kept : t.Silent ∧ t.client = s.client := by
    refine reached.invariant (motive := fun t => t.Silent ∧ t.client = s.client) ⟨silent, rfl⟩ ?_
    rintro u label next ⟨still, same⟩ _ stepped
    obtain ⟨later, same'⟩ := still.step stepped
    exact ⟨later, same'.trans same⟩
  refine ⟨kept.2, fun answer => ?_⟩
  cases here : t.point with
  | relaying left => exact absurd here (kept.1.2 left)
  | receiving => simp only [Relay.step, here]
  | appending block => simp only [Relay.step, here]
  | marking how complete => simp only [Relay.step, here]
  | ended how => simp only [Relay.step, here]

/-! ## What the client has no part in -/

/-- The loop without its client. -/
def origin (s : Relay) : Relay :=
  { s with
    clientAlive := false
    client := []
    point := match s.point with
      | .relaying _ => .receiving
      | point => point }

/-- All labels but those of the client. -/
def OfOrigin : RelayLabel → Bool
  | .send _ => false
  | _ => true

/-- A `recv` as the origin sees it. -/
theorem origin_afterRecv {answer : RecvAnswer} (received : s.afterRecv answer = some t) :
    s.origin.afterRecv answer = some t.origin := by
  cases answer with
  | interrupted =>
      obtain rfl := Option.some.inj received
      rfl
  | reset =>
      obtain rfl := Option.some.inj received
      rfl
  | failed =>
      obtain rfl := Option.some.inj received
      rfl
  | closed =>
      obtain rfl := Option.some.inj received
      rfl
  | bytes bytes =>
      obtain ⟨block, fits, rfl⟩ := Option.map_eq_some_iff.mp received
      simp only [Relay.afterRecv, fits, Option.map_some]
      rfl

/-- An append as it sees it. -/
theorem origin_afterAppend (s : Relay) (block : Block) (answer : ReallocAnswer) :
    s.origin.afterAppend block answer = (s.afterAppend block answer).origin := by
  have same : s.origin.entry = s.entry := rfl
  have dead : s.origin.clientAlive = false := rfl
  simp only [Relay.afterAppend, same, dead, Bool.false_eq_true, ↓reduceIte]
  by_cases refused : (cacheAppendData s.entry (some block) answer).1 ≠ 0
  · rw [if_pos refused, if_pos refused]
    rfl
  · rw [if_neg refused, if_neg refused]
    cases alive : s.clientAlive with
    | true => rfl
    | false => rfl

/-- What the client answers, the origin does not see. -/
theorem origin_hidden (sees : OfOrigin label = false) (stepped : s.step label = some t) :
    t.origin = s.origin := by
  obtain ⟨_, rfl, _⟩ | ⟨_, _, rfl, _⟩ | ⟨left, answer, rfl, here, rfl⟩ | ⟨_, _, rfl, _⟩ :=
    step_cases stepped
  · cases sees
  · cases sees
  · unfold origin Relay.afterSend
    rw [here]
    cases result : sendAll left answer with
    | sending rest => rfl
    | returned => rfl
    | error => rfl
  · cases sees

/-- All other steps are its own. -/
theorem origin_shown (sees : OfOrigin label = true) (stepped : s.step label = some t) :
    s.origin.step label = some t.origin := by
  obtain ⟨answer, rfl, here, received⟩ | ⟨block, answer, rfl, here, rfl⟩ | ⟨_, _, rfl, _⟩ |
    ⟨how, complete, rfl, here, rfl⟩ := step_cases stepped
  · have same : s.origin.point = .receiving := by simp only [origin, here]
    simp only [Relay.step, same]
    exact origin_afterRecv received
  · have same : s.origin.point = .appending block := by simp only [origin, here]
    simp only [Relay.step, same, origin_afterAppend]
  · cases sees
  · have same : s.origin.point = .marking how complete := by simp only [origin, here]
    simp only [Relay.step, same]
    rfl

/-- What the origin's `recv` answered, in order. -/
def recvs (labels : List RelayLabel) : List RecvAnswer :=
  labels.filterMap fun
    | .recv answer => some answer
    | _ => none

/-- What `realloc` answered, in order. -/
def reallocs (labels : List RelayLabel) : List ReallocAnswer :=
  labels.filterMap fun
    | .append answer => some answer
    | _ => none

/-- The loop has been left. -/
def Ended (s : Relay) : Prop := ∃ how, s.point = .ended how

/-- Behind the mark nothing happens. -/
theorem Ended.stays (ended : s.Ended) (label : RelayLabel) : s.step label = none := by
  obtain ⟨how, here⟩ := ended
  cases label with
  | recv answer => simp only [Relay.step, here]
  | append answer => simp only [Relay.step, here]
  | send answer => simp only [Relay.step, here]
  | mark => simp only [Relay.step, here]

/-- What is read off the answers of others than the client. -/
theorem filterMap_origin {α : Type} {f : RelayLabel → Option α}
    (hidden : ∀ answer, f (.send answer) = none) (labels : List RelayLabel) :
    (labels.filter OfOrigin).filterMap f = labels.filterMap f := by
  rw [List.filterMap_filter]
  apply congrArg (List.filterMap · labels)
  funext label
  cases label with
  | recv answer => rfl
  | append answer => rfl
  | send answer => exact (hidden answer).symm
  | mark => rfl

theorem filterMap_tail {α : Type} {f : RelayLabel → Option α} {labels labels' : List RelayLabel}
    (same : (label :: labels).filterMap f = (label :: labels').filterMap f) :
    labels.filterMap f = labels'.filterMap f := by
  cases here : f label with
  | none =>
      rw [List.filterMap_cons_none here, List.filterMap_cons_none here] at same
      exact same
  | some value =>
      rw [List.filterMap_cons_some here, List.filterMap_cons_some here] at same
      exact (List.cons.inj same).2

/-- Which label comes next is up to the point of the loop and the next answer. -/
theorem label_unique {label' : RelayLabel} {labels labels' : List RelayLabel} {t' : Relay}
    (origin : OfOrigin label = true) (origin' : OfOrigin label' = true)
    (stepped : s.step label = some t) (stepped' : s.step label' = some t')
    (received : recvs (label :: labels) = recvs (label' :: labels'))
    (granted : reallocs (label :: labels) = reallocs (label' :: labels')) : label = label' := by
  obtain ⟨answer, rfl, here, _⟩ | ⟨block, answer, rfl, here, _⟩ | ⟨left, answer, rfl, _⟩ |
    ⟨how, complete, rfl, here, _⟩ := step_cases stepped
  · obtain ⟨other, rfl, _⟩ | ⟨_, _, _, there, _⟩ | ⟨_, _, rfl, _⟩ | ⟨_, _, _, there, _⟩ :=
      step_cases stepped'
    · rw [(List.cons.inj received).1]
    · cases here.symm.trans there
    · cases origin'
    · cases here.symm.trans there
  · obtain ⟨_, _, there, _⟩ | ⟨_, other, rfl, _⟩ | ⟨_, _, rfl, _⟩ | ⟨_, _, _, there, _⟩ :=
      step_cases stepped'
    · cases here.symm.trans there
    · rw [(List.cons.inj granted).1]
    · cases origin'
    · cases here.symm.trans there
  · cases origin
  · obtain ⟨_, _, there, _⟩ | ⟨_, _, _, there, _⟩ | ⟨_, _, rfl, _⟩ | ⟨_, _, rfl, _⟩ :=
      step_cases stepped'
    · cases here.symm.trans there
    · cases here.symm.trans there
    · cases origin'
    · rfl

/-- Two runs without the client that get the same answers end in the same state. -/
theorem ended_unique {labels labels' : List RelayLabel} {finish finish' : Relay}
    (origins : ∀ label ∈ labels, OfOrigin label = true)
    (origins' : ∀ label ∈ labels', OfOrigin label = true)
    (ran : Transition.run Relay.step s labels = some finish)
    (ran' : Transition.run Relay.step s labels' = some finish')
    (ended : finish.Ended) (ended' : finish'.Ended)
    (received : recvs labels = recvs labels') (granted : reallocs labels = reallocs labels') :
    finish = finish' := by
  induction labels generalizing s labels' with
  | nil =>
      obtain rfl := Option.some.inj ran
      cases labels' with
      | nil => exact Option.some.inj ran'
      | cons label' labels' =>
          obtain ⟨next, moved, _⟩ := Option.bind_eq_some_iff.mp ran'
          rw [ended.stays] at moved
          cases moved
  | cons label labels ih =>
      obtain ⟨next, moved, rest⟩ := Option.bind_eq_some_iff.mp ran
      cases labels' with
      | nil =>
          obtain rfl := Option.some.inj ran'
          rw [ended'.stays] at moved
          cases moved
      | cons label' labels' =>
          obtain ⟨next', moved', rest'⟩ := Option.bind_eq_some_iff.mp ran'
          obtain rfl := label_unique (origins label List.mem_cons_self)
            (origins' label' List.mem_cons_self) moved moved' received granted
          obtain rfl := Option.some.inj (moved.symm.trans moved')
          apply ih _ _ rest rest' (filterMap_tail received) (filterMap_tail granted)
          · exact fun other member => origins other (List.mem_cons_of_mem _ member)
          · exact fun other member => origins' other (List.mem_cons_of_mem _ member)

/-- What is cached does not depend on what the client's socket answers. -/
theorem cached_independent {labels labels' : List RelayLabel} {finish finish' : Relay}
    (ran : Transition.run Relay.step s labels = some finish)
    (ran' : Transition.run Relay.step s labels' = some finish')
    (ended : finish.Ended) (ended' : finish'.Ended)
    (received : recvs labels = recvs labels') (granted : reallocs labels = reallocs labels') :
    finish.entry = finish'.entry ∧ finish.point = finish'.point := by
  have erased := Transition.run_erase (fun _ _ _ => origin_hidden) (fun _ _ _ => origin_shown) ran
  have erased' :=
    Transition.run_erase (fun _ _ _ => origin_hidden) (fun _ _ _ => origin_shown) ran'
  have origins : ∀ labels : List RelayLabel, ∀ label ∈ labels.filter OfOrigin,
      OfOrigin label = true := fun labels label member => List.of_mem_filter member
  have point : ∀ {t : Relay}, t.Ended → t.origin.point = t.point := by
    rintro t ⟨how, here⟩
    simp only [origin, here]
  have stays : ∀ {t : Relay}, t.Ended → t.origin.Ended := fun ended =>
    ended.imp fun _ here => (point ended).trans here
  have same := ended_unique (origins labels) (origins labels') erased erased' (stays ended)
    (stays ended') ?_ ?_
  · have entries : finish.origin.entry = finish'.origin.entry := by rw [same]
    refine ⟨entries, ?_⟩
    rw [← point ended, ← point ended', same]
  · unfold recvs
    rw [filterMap_origin fun _ => rfl, filterMap_origin fun _ => rfl]
    exact received
  · unfold reallocs
    rw [filterMap_origin fun _ => rfl, filterMap_origin fun _ => rfl]
    exact granted

/-! ## The outcome -/

/-- What the loop leaves behind: all received blocks are stored, but the last one where it
could not be appended, and the entry is marked complete, or else failed, by how the loop
was left. -/
structure Outcome (s : Relay) (how : RelayEnd) : Prop where
  stored : s.entry.stored =
    (if how = .appendFailed then s.received.dropLast else s.received).flatten
  complete : s.entry.complete = true ↔ how = .endOfStream ∨ how = .reset ∧ s.received.flatten ≠ []
  failed : s.entry.failed = true ↔ ¬ s.entry.complete = true

/-- What the end of the loop says about the entry. -/
theorem Sound.outcome {how : RelayEnd} (sound : s.Sound) (here : s.point = .ended how) :
    s.Outcome how := by
  have caches := sound.caches
  rw [here] at caches
  obtain ⟨stores, completes, fails⟩ := caches
  exact ⟨stores, completes, fails.trans (not_congr completes).symm⟩

/-- **The outcome of the relay loop.** -/
theorem relay_outcome {e : CacheEntry} (fresh : Fresh e) :
    (∀ s how, Transition.Reaches Relay.step (Relay.start e) s → s.point = .ended how →
      s.Outcome how) ∧
    (∀ labels labels' finish finish',
      Transition.run Relay.step (Relay.start e) labels = some finish →
      Transition.run Relay.step (Relay.start e) labels' = some finish' →
      finish.Ended → finish'.Ended → recvs labels = recvs labels' →
      reallocs labels = reallocs labels' →
        finish.entry = finish'.entry ∧ finish.point = finish'.point) ∧
    (∀ s, Transition.ReachesBy Relay.step SendTakes (Relay.start e) s →
      s.client <+: s.entry.stored) ∧
    ∀ s t u, Transition.Reaches Relay.step (Relay.start e) s →
      s.step (.send .failed) = some t → Transition.Reaches Relay.step t u →
        u.client = s.client ∧ ∀ answer, u.step (.send answer) = none := by
  refine ⟨fun s how reached here => (Sound.of_reaches fresh reached).outcome here,
    fun _ _ _ _ => cached_independent, fun s => client_front fresh,
    fun s t u _ failed reached => ?_⟩
  obtain ⟨silent, same⟩ := silent_of_failed failed
  obtain ⟨kept, none⟩ := silent.reaches reached
  exact ⟨kept.trans same, none⟩

/-- The theorem at a run with one block, for a client that is gone and an origin that
resets the connection. -/
theorem relay_outcome_run : ∃ s : Relay,
    Transition.run Relay.step (start (freshEntry ⟨[107], by decide⟩))
      [.recv (.bytes [104, 105]), .append (some fun _ => 0), .send .failed, .recv .reset,
        .mark] = some s ∧ s.Outcome .reset := by
  obtain ⟨s, ran, same⟩ := Option.map_eq_some_iff.mp
    (show (Transition.run Relay.step (start (freshEntry ⟨[107], by decide⟩))
      [.recv (.bytes [104, 105]), .append (some fun _ => 0), .send .failed, .recv .reset,
        .mark]).map Relay.point = some (.ended .reset) by decide +kernel)
  have fresh : Fresh (freshEntry ⟨[107], by decide⟩) := ⟨rfl, rfl, rfl⟩
  exact ⟨s, ran, (relay_outcome fresh).1 s .reset (Transition.Reaches.of_run ran .start) same⟩

/-! ## The loop inside the handler -/

/-- The points of the handler in this loop, and behind it. -/
inductive At : FetchPoint → RelayPoint → Prop
  | recv : At .recv .receiving
  | lockAppend (block : Block) : At (.lockAppend block) (.appending block)
  | append (block : Block) : At (.append block) (.appending block)
  | relay (left : List UInt8) : At (.relay left) (.relaying left)
  | lockMark (how : RelayEnd) (complete : Bool) : At (.lockMark complete) (.marking how complete)
  | mark (how : RelayEnd) (complete : Bool) : At (.mark complete) (.marking how complete)

/-- A worker that runs the loop on the entry at `p` is where the loop is. -/
inductive Follows (request : Request) (p : Cache.Ptr) (s : Relay) : Pc → Prop
  | inside {point : FetchPoint} : At point s.point →
      Follows request p s (.fetching request p s.total s.clientAlive point)
  | behind {how : RelayEnd} : s.point = .ended how →
      Follows request p s (.releasing p true .lockTable)

theorem Follows.of_eq {request : Request} {p : Cache.Ptr} {total : Nat} {alive : Bool}
    {point : FetchPoint} (at_ : At point s.point) (counted : total = s.total)
    (same : alive = s.clientAlive) :
    Follows request p s (.fetching request p total alive point) := by
  subst counted
  subst same
  exact .inside at_

/-- **The handler runs this loop.** Each of its steps there is one of the loop, or leaves
it as it is. -/
theorem stepFetch_follows {table : CacheTable} {request : Request} {p : Cache.Ptr}
    {point : FetchPoint} {answers : Answers} {effect : Effect} (here : table.heap p = some s.entry)
    (at_ : At point s.point)
    (moved : stepFetch table request p s.total s.clientAlive answers point = some effect) :
    ∃ t, (t = s ∨ ∃ label, s.step label = some t) ∧ effect.table.heap p = some t.entry ∧
      Follows request p t effect.pc := by
  generalize place : s.point = relayPoint at at_
  have steps : ∀ label t, s.step label = some t → t = s ∨ ∃ label, s.step label = some t :=
    fun label _ stepped => .inr ⟨label, stepped⟩
  cases at_ with
  | recv =>
      have received : ∀ t, s.afterRecv answers.recv = some t →
          s.step (.recv answers.recv) = some t := by
        intro t after
        simp only [Relay.step, place, after]
      simp only [stepFetch] at moved
      cases answer : answers.recv with
      | interrupted =>
          rw [answer] at moved
          obtain rfl := Option.some.inj moved
          exact ⟨s, .inl rfl, here, .inside (place ▸ .recv)⟩
      | reset =>
          rw [answer] at moved received
          obtain rfl := Option.some.inj moved
          exact ⟨_, steps _ _ (received _ rfl), here, .inside (.lockMark _ _)⟩
      | failed =>
          rw [answer] at moved received
          obtain rfl := Option.some.inj moved
          exact ⟨_, steps _ _ (received _ rfl), here, .inside (.lockMark _ _)⟩
      | closed =>
          rw [answer] at moved received
          obtain rfl := Option.some.inj moved
          exact ⟨_, steps _ _ (received _ rfl), here, .inside (.lockMark _ _)⟩
      | bytes bytes =>
          rw [answer] at moved received
          obtain ⟨block, fits, rfl⟩ := Option.map_eq_some_iff.mp moved
          refine ⟨_, steps _ _ (received _ (Option.map_eq_some_iff.mpr ⟨block, fits, rfl⟩)), here,
            .inside (.lockAppend _)⟩
  | lockAppend block =>
      obtain rfl := Option.some.inj moved
      exact ⟨s, .inl rfl, here, .inside (place ▸ .append block)⟩
  | append block =>
      obtain ⟨e, found, rfl⟩ := Option.map_eq_some_iff.mp moved
      obtain rfl := Option.some.inj (here.symm.trans found)
      have stepped : s.step (.append answers.realloc) =
          some (s.afterAppend block answers.realloc) := by
        simp only [Relay.step, place]
      refine ⟨_, steps _ _ stepped, ?_, ?_⟩
      · simp [CacheTable.modify, here, Relay.afterAppend]
      · apply Follows.inside
        simp only [Relay.afterAppend]
        split_ifs
        · exact .lockMark _ _
        · exact .relay _
        · exact .recv
  | relay left =>
      obtain rfl := Option.some.inj moved
      have stepped : s.step (.send answers.send) = some (s.afterSend left answers.send) := by
        simp only [Relay.step, place]
      refine ⟨_, steps _ _ stepped, here, ?_⟩
      have here : (s.afterSend left answers.send).point = match sendAll left answers.send with
          | .sending rest => .relaying rest
          | .returned => .receiving
          | .error => .receiving := by
        simp only [Relay.afterSend]
      cases result : sendAll left answers.send with
      | sending rest =>
          rw [result] at here
          exact .of_eq (here ▸ .relay rest) rfl (by simp [Relay.afterSend, result])
      | returned =>
          rw [result] at here
          exact .of_eq (here ▸ .recv) rfl (by simp [Relay.afterSend, result])
      | error =>
          rw [result] at here
          exact .of_eq (here ▸ .recv) rfl (by simp [Relay.afterSend, result])
  | lockMark how complete =>
      obtain rfl := Option.some.inj moved
      exact ⟨s, .inl rfl, here, .inside (place ▸ .mark how complete)⟩
  | mark how complete =>
      obtain ⟨e, found, rfl⟩ := Option.map_eq_some_iff.mp moved
      have stepped : s.step .mark = some (s.afterMark how complete) := by
        simp only [Relay.step, place]
      refine ⟨_, steps _ _ stepped, ?_, @Follows.behind _ _ (s.afterMark how complete) how rfl⟩
      cases complete with
      | true => simp [CacheTable.modify, here, Relay.afterMark]
      | false => simp [CacheTable.modify, here, Relay.afterMark]

end Relay

end OperationSystems.Proxy
