import OperationSystems.Proxy.Relay

/-!
# What a result of `send_all` means

`send_all` returns -1 after an error, and otherwise the number of bytes it has handed over.
Its callers test only whether the result is negative. A `send` that answers 0 ends the loop
early with a result that is not, so the callers go on with the next block although this one
has not been sent. Without such an answer a result that is not negative means that all bytes
were handed over, and what the callers' clients get has no hole.
-/

namespace OperationSystems.Proxy

open Cache

/-- The cast of a `size_t` to `ssize_t`. -/
def ssize (n : Nat) : Int := (BitVec.ofNat 64 n).toInt

theorem ssize_eq {n : Nat} (small : n ≤ ptrdiffMax) : ssize n = n := by
  unfold ptrdiffMax at small
  unfold ssize
  rw [BitVec.toInt_eq_toNat_of_lt]
  · rw [BitVec.toNat_ofNat, Nat.mod_eq_of_lt (by omega)]
  · rw [BitVec.toNat_ofNat, Nat.mod_eq_of_lt (by omega)]
    omega

/-- `send_all` between two calls of `send`, or at its end, with the bytes that the socket
has taken so far. -/
inductive Transmission
  | sending (handed left : List UInt8)
  | returned (value : Int) (handed : List UInt8)
  deriving DecidableEq

namespace Transmission

variable (buf : Block)

/-- `(ssize_t)(len - left)`. -/
def count (left : List UInt8) : Int := ssize (sizeSub buf.bytes.length left.length)

/-- The head of the loop. -/
def loop (handed left : List UInt8) : Transmission :=
  if left = [] then .returned (count buf left) handed else .sending handed left

def start : Transmission := loop buf [] buf.bytes

/-- `send_all`, one call of `send` at a time. -/
def step : Transmission → SendAnswer → Option Transmission
  | .sending handed left, .interrupted => some (loop buf handed left)
  | .sending handed _, .failed => some (.returned (-1) handed)
  | .sending handed left, .took n =>
      if left.length < n then none
      else if n = 0 then some (.returned (count buf left) handed)
      else some (loop buf (handed ++ left.take n) (left.drop n))
  | .returned _ _, _ => none

/-- What was handed over is a front of the buffer, and all of it where the result is not
negative. -/
def SentAll (buf : Block) : Transmission → Prop
  | .sending handed _ => handed <+: buf.bytes
  | .returned value handed => handed <+: buf.bytes ∧ (0 ≤ value → handed = buf.bytes)

variable {buf} {handed left : List UInt8} {t : Transmission}

/-- What was counted is what was handed over. -/
theorem count_eq (text : handed ++ left = buf.bytes) : count buf left = handed.length := by
  have bound := buf.bounded
  have size := congrArg List.length text
  rw [List.length_append] at size
  rw [count, sizeSub_eq bound (by omega), ssize_eq (by omega)]
  omega

/-- Behind its return there are no steps. -/
theorem run_returned {value : Int} {answers : List SendAnswer}
    (ran : Transition.run (step buf) (.returned value handed) answers = some t) :
    answers = [] ∧ t = .returned value handed := by
  cases answers with
  | nil => exact ⟨rfl, (Option.some.inj ran).symm⟩
  | cons answer answers => cases ran

/-- The loop from a point where some bytes are left. -/
theorem sentAll_iff_sending {answers : List SendAnswer} (text : handed ++ left = buf.bytes)
    (some_left : left ≠ [])
    (ran : Transition.run (step buf) (.sending handed left) answers = some t) :
    SentAll buf t ↔ SendAnswer.took 0 ∉ answers := by
  induction answers generalizing handed left with
  | nil =>
      obtain rfl := Option.some.inj ran
      exact iff_of_true ⟨left, text⟩ List.not_mem_nil
  | cons answer answers ih =>
      obtain ⟨next, moved, rest⟩ := Option.bind_eq_some_iff.mp ran
      cases answer with
      | interrupted =>
          rw [step, loop, if_neg some_left, Option.some.injEq] at moved
          subst moved
          rw [ih text some_left rest]
          simp
      | failed =>
          rw [step, Option.some.injEq] at moved
          subst moved
          obtain ⟨rfl, rfl⟩ := run_returned rest
          apply iff_of_true
          · exact ⟨⟨left, text⟩, fun positive => absurd positive (by decide)⟩
          · simp
      | took n =>
          rw [step] at moved
          split_ifs at moved with more zero
          · subst zero
            obtain rfl := Option.some.inj moved
            obtain ⟨rfl, rfl⟩ := run_returned rest
            apply iff_of_false
            · rintro ⟨_, all⟩
              rw [count_eq text] at all
              rw [all (Int.natCast_nonneg _)] at text
              exact some_left (List.append_right_eq_self.mp text)
            · exact not_not_intro List.mem_cons_self
          · have split : (handed ++ left.take n) ++ left.drop n = buf.bytes := by
              rw [List.append_assoc, List.take_append_drop, text]
            have other : SendAnswer.took 0 ≠ .took n := fun same =>
              zero (SendAnswer.took.inj same).symm
            have tail : SendAnswer.took 0 ∉ SendAnswer.took n :: answers ↔
                SendAnswer.took 0 ∉ answers := by
              rw [List.mem_cons, not_or, and_iff_right other]
            rw [tail]
            unfold loop at moved
            split_ifs at moved with done
            · obtain rfl := Option.some.inj moved
              obtain ⟨rfl, rfl⟩ := run_returned rest
              rw [done, List.append_nil] at split
              exact iff_of_true ⟨split ▸ List.prefix_refl _, fun _ => split⟩ List.not_mem_nil
            · obtain rfl := Option.some.inj moved
              exact ih split done rest

/-- A whole call. -/
theorem sentAll_iff {answers : List SendAnswer}
    (ran : Transition.run (step buf) (start buf) answers = some t) :
    SentAll buf t ↔ SendAnswer.took 0 ∉ answers := by
  unfold start loop at ran
  split_ifs at ran with empty
  · obtain ⟨rfl, rfl⟩ := run_returned ran
    exact iff_of_true ⟨List.nil_prefix, fun _ => empty.symm⟩ List.not_mem_nil
  · exact sentAll_iff_sending rfl empty ran

/-- The callers take a result for a block that was sent exactly where it is not negative. -/
theorem step_eq_sendAll (text : handed ++ left = buf.bytes) {answer : SendAnswer}
    (moved : step buf (.sending handed left) answer = some t) (some_left : left ≠ []) :
    match sendAll left answer with
    | .sending rest => t = .sending (handed ++ taken left answer) rest
    | .returned => ∃ value, 0 ≤ value ∧ t = .returned value (handed ++ taken left answer)
    | .error => t = .returned (-1) (handed ++ taken left answer) := by
  cases answer with
  | interrupted =>
      rw [step, loop, if_neg some_left] at moved
      simpa [sendAll, taken] using (Option.some.inj moved).symm
  | failed => simpa [sendAll, taken] using (Option.some.inj moved).symm
  | took n =>
      rw [step] at moved
      simp only [sendAll, taken]
      have split : (handed ++ left.take n) ++ left.drop n = buf.bytes := by
        rw [List.append_assoc, List.take_append_drop, text]
      split_ifs at moved with more zero
      · subst zero
        simp only [↓reduceIte, List.take_zero, List.append_nil]
        refine ⟨count buf left, ?_, (Option.some.inj moved).symm⟩
        rw [count_eq text]
        exact Int.natCast_nonneg _
      · unfold loop at moved
        split_ifs at moved with done
        · simp only [zero, done, ↓reduceIte]
          refine ⟨count buf [], ?_, (done ▸ Option.some.inj moved).symm⟩
          rw [done] at split
          rw [count_eq split]
          exact Int.natCast_nonneg _
        · simp only [zero, done, ↓reduceIte]
          exact (Option.some.inj moved).symm

end Transmission

/-! ## The callers -/

/-- What a reader sends is a front of what is stored. -/
theorem Streaming.sent_front {ι : Type} [DecidableEq ι] {key : CStrings.CString}
    {s : Streaming ι}
    (reached : Transition.ReachesBy Streaming.step Streaming.SendTakes (Streaming.start key) s)
    (reader : ι) : (s.reader reader).sent <+: s.entry.stored := by
  have sound : s.Sound := reached.invariant (Streaming.Sound.start key)
    fun _ _ _ before takes stepped => before.step takes stepped
  exact (sound.readers reader).sent_is_front

/-- **When a result that is not negative means that all was sent.** For a call exactly when
no `send` answers 0; and where none does, what the clients of both callers get is a front
of what is stored. -/
theorem nonnegative_iff_sent {buf : Block} {answers : List SendAnswer} {t : Transmission}
    (ran : Transition.run (Transmission.step buf) (Transmission.start buf) answers = some t) :
    (Transmission.SentAll buf t ↔ SendAnswer.took 0 ∉ answers) ∧
    (∀ e s, Relay.Fresh e →
      Transition.ReachesBy Relay.step Relay.SendTakes (Relay.start e) s →
        s.client <+: s.entry.stored) ∧
    ∀ (ι : Type) [DecidableEq ι] key (s : Streaming ι) reader,
      Transition.ReachesBy Streaming.step Streaming.SendTakes (Streaming.start key) s →
        (s.reader reader).sent <+: s.entry.stored := by
  refine ⟨Transmission.sentAll_iff ran, ?_, ?_⟩
  · intro e s fresh
    exact Relay.client_front fresh
  · intro ι _ key s reader reached
    exact Streaming.sent_front reached reader

/-- The theorem at a call that is sent in two parts. -/
theorem nonnegative_iff_sent_run :
    Transmission.SentAll ⟨[104, 105], by decide⟩ (.returned 2 [104, 105]) ↔
      SendAnswer.took 0 ∉ [.took 1, .interrupted, .took 1] := by
  have ran : Transition.run (Transmission.step ⟨[104, 105], by decide⟩)
      (Transmission.start ⟨[104, 105], by decide⟩) [.took 1, .interrupted, .took 1] =
        some (.returned 2 [104, 105]) := by
    decide +kernel
  exact (nonnegative_iff_sent ran).1

/-- A relay whose first block is not sent and whose second one is. -/
theorem relay_hole : ∃ s : Relay,
    Transition.Reaches Relay.step (Relay.start (freshEntry ⟨[107], by decide⟩)) s ∧
      ¬ s.client <+: s.entry.stored := by
  obtain ⟨s, ran, same⟩ := Option.map_eq_some_iff.mp
    (show (Transition.run Relay.step (Relay.start (freshEntry ⟨[107], by decide⟩))
      [.recv (.bytes [104]), .append (some fun _ => 0), .send (.took 0), .recv (.bytes [105]),
        .append none, .send (.took 1)]).map (fun s => (s.point, s.received, s.client)) =
          some (.receiving, [[104], [105]], [105]) by decide +kernel)
  have here : s.point = .receiving := congrArg Prod.fst same
  have received : s.received = [[104], [105]] := congrArg (fun x => x.2.1) same
  have client : s.client = [105] := congrArg (fun x => x.2.2) same
  have reached := Transition.Reaches.of_run ran .start
  have caches := (Relay.Sound.of_reaches ⟨rfl, rfl, rfl⟩ reached).caches
  rw [here, received] at caches
  refine ⟨s, reached, ?_⟩
  rw [client, caches.1]
  decide

/-- A call that sends nothing and does not say so, and the hole behind it. -/
theorem send_all_keeps_silent :
    (¬ ∀ buf answers t,
      Transition.run (Transmission.step buf) (Transmission.start buf) answers = some t →
        Transmission.SentAll buf t) ∧
    ¬ ∀ e s, Relay.Fresh e → Transition.Reaches Relay.step (Relay.start e) s →
      s.client <+: s.entry.stored := by
  constructor
  · intro always
    have sent := always ⟨[97], by decide⟩ [.took 0] (.returned 0 []) (by decide +kernel)
    exact absurd (sent.2 (by decide)) (by decide)
  · intro always
    obtain ⟨s, reached, hole⟩ := relay_hole
    exact hole (always _ s ⟨rfl, rfl, rfl⟩ reached)

end OperationSystems.Proxy
