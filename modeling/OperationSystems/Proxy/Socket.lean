import Mathlib.Data.List.Basic

/-!
# What sockets answer

`recv` and `send` as their callers see them, and `send_all`, the loop around
`send` that everything the proxy writes goes through.
-/

namespace OperationSystems.Proxy

/-- What `recv` answers: bytes, end of stream, EINTR, ECONNRESET or another
error. -/
inductive RecvAnswer
  | bytes (received : List UInt8)
  | closed
  | interrupted
  | reset
  | failed

/-- What `send` answers: a count (no more than was offered), EINTR or another
error. -/
inductive SendAnswer
  | took (count : Nat)
  | interrupted
  | failed

/-- Where `send_all` is after one `send`: still `left` bytes to go, or returned
with a count or with -1. -/
inductive SendAll
  | sending (left : List UInt8)
  | returned
  | error
  deriving DecidableEq

/-- One iteration of the loop of `send_all`. -/
def sendAll (left : List UInt8) : SendAnswer → SendAll
  | .interrupted => .sending left
  | .failed => .error
  | .took count =>
      if count = 0 then .returned
      else if left.drop count = [] then .returned
      else .sending (left.drop count)

/-- `send_all` before its first `send`. -/
def sendAllStart (buf : List UInt8) : SendAll := if buf = [] then .returned else .sending buf

/-- The bytes one `send` has taken. -/
def taken (left : List UInt8) : SendAnswer → List UInt8
  | .took count => left.take count
  | .interrupted | .failed => []

/-- A `send` that takes some bytes moves them from what is left. -/
theorem sendAll_spec {left : List UInt8} {answer : SendAnswer} (takes : answer ≠ .took 0) :
    match sendAll left answer with
    | .sending rest => taken left answer ++ rest = left
    | .returned => taken left answer = left
    | .error => taken left answer = [] := by
  cases answer with
  | interrupted => rfl
  | failed => rfl
  | took count =>
      have positive : count ≠ 0 := fun none => takes (none ▸ rfl)
      simp only [sendAll, positive, ↓reduceIte, taken]
      split_ifs with all
      · exact List.take_of_length_le (List.drop_eq_nil_iff.mp all)
      · exact List.take_append_drop count left

end OperationSystems.Proxy
