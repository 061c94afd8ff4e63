import OperationSystems.Proxy.HostHeader

/-!
# How the stream of a client was cut

The stream of a client arrives in pieces, and `handle_client` looks for the blank line
after each of them. What is in `buf` when it finds one depends on the pieces, and
`find_host_header` searches all of it. So the decision is the same for all ways of cutting
a stream exactly when the first `Host:` behind its request line, if there is one at all,
stands in front of its first blank line.
-/

namespace OperationSystems.Proxy

open CStrings

/-- How `recv` may answer while a client sends `stream` and then closes. The pieces must
not be empty and must fit into what is left of `buf`; this is up to `receive`. -/
inductive Delivers : List UInt8 → List RecvAnswer → Prop
  | pending (stream : List UInt8) : Delivers stream []
  | interrupted {stream : List UInt8} {answers : List RecvAnswer} :
      Delivers stream answers → Delivers stream (.interrupted :: answers)
  | block (received : List UInt8) {stream : List UInt8} {answers : List RecvAnswer} :
      Delivers stream answers → Delivers (received ++ stream) (.bytes received :: answers)
  | closed : Delivers [] [.closed]

/-- What `handle_client` does with a client: it closes the connection, it goes on to
`cache_start_or_join`, or it leaves `buf`. -/
inductive Decision
  | rejects
  | continues (request : Request)
  | faults
  deriving DecidableEq

/-- The decision on what is in `buf` when the loop is left. -/
def parseDecision (buf : List UInt8) : Decision :=
  match parseRequest buf with
  | .ok request => .continues request
  | .error (.rejected _) => .rejects
  | .error .fault => .faults

/-- The decision after some answers of `recv`, if there is one yet. -/
def decision (answers : List RecvAnswer) : Option Decision :=
  (receiveAll [] answers).bind fun
    | .reading _ => none
    | .received buf => some (parseDecision buf)
    | .rejected _ => some .rejects

/-- Two runs reject, or they continue with the same host, uri and key (the method of both
is `GET`). -/
inductive SameDecision : Decision → Decision → Prop
  | rejects : SameDecision .rejects .rejects
  | continues {request other : Request} : request.host = other.host → request.uri = other.uri →
      request.key = other.key → SameDecision (.continues request) (.continues other)

/-- The decision on a stream does not depend on how it was cut. -/
def CutFree (stream : List UInt8) : Prop :=
  ∀ first second one other, Delivers stream first → Delivers stream second →
    decision first = some one → decision second = some other → SameDecision one other

/-- What of a stream fits into `buf`. -/
def window (stream : List UInt8) : List UInt8 := stream.take bufSize

/-- If there is a `Host:` behind the request line, the first one stands in front of the
first blank line. -/
def HostBeforeBlank (stream : List UInt8) : Prop :=
  ∀ (line : LineReading (window stream)) (i j : ℕ),
    FirstAt (ascii "Host:") line.headers i → FirstAt (ascii "\r\n\r\n") (window stream) j →
      line.stored.headersStart + i < j

/-- The handler goes on exactly with what it accepts. -/
theorem decision_eq_continues {answers : List RecvAnswer} {request : Request} :
    decision answers = some (.continues request) ↔ Accepted answers request := by
  unfold decision Accepted
  constructor
  · intro decided
    obtain ⟨ended, ran, made⟩ := Option.bind_eq_some_iff.mp decided
    cases ended with
    | reading buf => cases made
    | rejected why => cases made
    | received buf =>
        refine ⟨buf, ran, ?_⟩
        replace made := Option.some.inj made
        unfold parseDecision at made
        split at made
        · rename_i parsed
          rw [parsed, Decision.continues.inj made]
        · cases made
        · cases made
  · rintro ⟨buf, ran, parsed⟩
    rw [ran, Option.bind_some]
    simp only [parseDecision, parsed]

/-! ## The loop that fills the buffer -/

/-- What the loop does with a piece. -/
theorem receive_bytes {buf received : List UInt8} {next : Receive}
    (answered : receive buf (.bytes received) = some next) :
    (buf ++ received).length ≤ bufSize ∧
      ((∃ j, FirstAt (ascii "\r\n\r\n") (buf ++ received) j) ∧ next = .received (buf ++ received) ∨
        memmemSimple (buf ++ received) (ascii "\r\n\r\n") = none ∧
          (next = .reading (buf ++ received) ∨
            (buf ++ received).length = bufSize ∧ next = .rejected .headersTooLarge)) := by
  simp only [receive] at answered
  split_ifs at answered with room found full
  · refine ⟨by rw [List.length_append]; omega, .inl ⟨?_, (Option.some.inj answered).symm⟩⟩
    obtain ⟨j, first⟩ := Option.ne_none_iff_exists'.mp found
    exact ⟨j, blank_eq_some_iff.mp first⟩
  · exact ⟨full.le, .inr ⟨not_not.mp found, .inr ⟨full, (Option.some.inj answered).symm⟩⟩⟩
  · refine ⟨by rw [List.length_append]; omega, .inr ⟨not_not.mp found, .inl ?_⟩⟩
    exact (Option.some.inj answered).symm

/-- The loop goes on after an answer, or it has ended with it. -/
theorem receiveAll_cons {buf : List UInt8} {answer : RecvAnswer} {answers : List RecvAnswer}
    {ended : Receive} (ran : receiveAll buf (answer :: answers) = some ended) :
    (∃ next, receive buf answer = some (.reading next) ∧ receiveAll next answers = some ended) ∨
      receive buf answer = some ended ∧ answers = [] := by
  unfold receiveAll at ran
  split at ran
  · rename_i next answered
    exact .inl ⟨next, answered, ran⟩
  · rename_i last _ answered
    split_ifs at ran with none
    rw [Option.some.inj ran] at answered
    exact .inr ⟨answered, List.isEmpty_iff.mp none⟩
  · cases ran

/-- The loop from a piece on. -/
theorem receiveAll_bytes {buf received : List UInt8} {answers : List RecvAnswer} {ended : Receive}
    (ran : receiveAll buf (.bytes received :: answers) = some ended) :
    (buf ++ received).length ≤ bufSize ∧
      ((∃ j, FirstAt (ascii "\r\n\r\n") (buf ++ received) j) ∧ ended = .received (buf ++ received) ∨
        memmemSimple (buf ++ received) (ascii "\r\n\r\n") = none ∧
          (receiveAll (buf ++ received) answers = some ended ∨
            (buf ++ received).length = bufSize ∧ ended = .rejected .headersTooLarge)) := by
  rcases receiveAll_cons ran with ⟨next, answered, rest⟩ | ⟨answered, rfl⟩
  · rcases receive_bytes answered with ⟨fits, ⟨_, other⟩ | ⟨missing, same | ⟨_, other⟩⟩⟩
    · cases other
    · obtain rfl := Receive.reading.inj same
      exact ⟨fits, .inr ⟨missing, .inl rest⟩⟩
    · cases other
  · rcases receive_bytes answered with ⟨fits, found | ⟨missing, rfl | full⟩⟩
    · exact ⟨fits, .inl found⟩
    · exact ⟨fits, .inr ⟨missing, .inl rfl⟩⟩
    · exact ⟨fits, .inr ⟨missing, .inr full⟩⟩

/-- When the loop is left with a blank line, `buf` is a front of the stream. -/
theorem Delivers.received {stream buf text : List UInt8} {answers : List RecvAnswer}
    (delivers : Delivers stream answers)
    (ran : receiveAll buf answers = some (.received text)) :
    text <+: buf ++ stream ∧ text.length ≤ bufSize ∧ ∃ j, FirstAt (ascii "\r\n\r\n") text j := by
  induction delivers generalizing buf with
  | pending stream => cases ran
  | interrupted _ ih => exact ih ran
  | closed => cases ran
  | @block received stream answers _ ih =>
      rw [← List.append_assoc]
      rcases receiveAll_bytes ran with ⟨fits, ⟨blank, same⟩ | ⟨_, rest | ⟨_, other⟩⟩⟩
      · rw [Receive.received.inj same]
        exact ⟨List.prefix_append _ _, fits, blank⟩
      · exact ih rest
      · cases other

/-- The loop gives up only on a stream without a blank line in what fits into `buf`. -/
theorem Delivers.rejected {stream buf : List UInt8} {answers : List RecvAnswer} {why : Reject}
    (delivers : Delivers stream answers) (missing : memmemSimple buf (ascii "\r\n\r\n") = none)
    (fits : buf.length ≤ bufSize) (ran : receiveAll buf answers = some (.rejected why)) :
    memmemSimple (window (buf ++ stream)) (ascii "\r\n\r\n") = none := by
  induction delivers generalizing buf with
  | pending stream => cases ran
  | interrupted _ ih => exact ih missing fits ran
  | closed =>
      rw [window, List.append_nil, List.take_of_length_le fits]
      exact missing
  | @block received stream answers _ ih =>
      rw [← List.append_assoc]
      rcases receiveAll_bytes ran with ⟨fits', ⟨_, other⟩ | ⟨missing', rest | ⟨full, _⟩⟩⟩
      · cases other
      · exact ih missing' fits' rest
      · rw [window, ← full, List.take_left]
        exact missing'

/-- As long as the loop goes on, there is no blank line in `buf`. -/
theorem Delivers.reading {stream buf text : List UInt8} {answers : List RecvAnswer}
    (delivers : Delivers stream answers) (missing : memmemSimple buf (ascii "\r\n\r\n") = none)
    (ran : receiveAll buf answers = some (.reading text)) :
    memmemSimple text (ascii "\r\n\r\n") = none := by
  induction delivers generalizing buf with
  | pending stream =>
      obtain rfl := Receive.reading.inj (Option.some.inj ran)
      exact missing
  | interrupted _ ih => exact ih missing ran
  | closed => cases ran
  | block received _ ih =>
      rcases receiveAll_bytes ran with ⟨_, ⟨_, other⟩ | ⟨missing', rest | ⟨_, other⟩⟩⟩
      · cases other
      · exact ih missing' rest
      · cases other

/-! ## The parser on a longer text -/

section Longer

variable {text extra : List UInt8}

namespace LineReading

/-- The request line is cut the same way when more is received behind it. -/
def extend (line : LineReading text) (extra : List UInt8) : LineReading (text ++ extra) where
  target := line.target
  version := line.version
  headers := line.headers ++ extra
  text := (congrArg (· ++ extra) line.text).trans (by simp)
  lineEnd := line.lineEnd.append (by decide) extra
  noSpace := line.noSpace
  noNul := line.noNul

/-- Where the headers start does not depend on how the request line is read. -/
theorem headers_unique (line other : LineReading text) :
    line.stored.headersStart = other.stored.headersStart ∧ line.headers = other.headers := by
  have start : line.stored.headersStart = other.stored.headersStart :=
    congrArg (· + 2) (line.lineEnd.unique other.lineEnd)
  refine ⟨start, ?_⟩
  rw [← line.drop_headers, ← other.drop_headers, start]

/-- A request line that ends in the front of a text is cut the same way there. -/
theorem exists_front (line : LineReading (text ++ extra))
    (inside : line.stored.headersStart ≤ text.length) :
    ∃ front : LineReading text, line.headers = front.headers ++ extra ∧
      front.stored.headersStart = line.stored.headersStart := by
  have whole : text ++ extra = (ascii "GET" ++ space :: (line.target ++
      space :: (line.version ++ [cr, lf]))) ++ line.headers := by
    simpa using line.text
  have size : (ascii "GET" ++ space :: (line.target ++
      space :: (line.version ++ [cr, lf]))).length = line.stored.headersStart := by
    simp [stored, length_get]
    omega
  obtain ⟨headers, split⟩ := List.prefix_of_prefix_length_le ⟨line.headers, whole.symm⟩
    (List.prefix_append text extra) (size.le.trans inside)
  have behind : line.headers = headers ++ extra := by
    apply List.append_cancel_left
    exact whole.symm.trans ((congrArg (· ++ extra) split.symm).trans (List.append_assoc _ _ _))
  have ends : FirstAt (ascii "\r\n") text (5 + line.target.length + line.version.length) :=
    line.lineEnd.of_append inside
  refine ⟨⟨line.target, line.version, headers, ?_, ends, line.noSpace, line.noNul⟩, behind, rfl⟩
  simpa using split.symm

/-- A first `Host:` that is already in the front of a text lies inside it. -/
theorem host_inside (line : LineReading (text ++ extra)) {i j : ℕ}
    (host : FirstAt (ascii "Host:") line.headers i) (front : LineReading text)
    (found : FirstAt (ascii "Host:") front.headers j) :
    line.stored.headersStart + (i + 5) ≤ text.length := by
  obtain ⟨start, headers⟩ := (front.extend extra).headers_unique line
  have place : i = j := by
    rw [← headers] at host
    exact host.unique (found.append (by decide) extra)
  have room := found.here.length_le
  rw [← front.drop_headers, List.length_drop, List.length_drop, length_host] at room
  change front.stored.headersStart = _ at start
  omega

/-- Where the text ends with an LF, there is one behind every `Host:`. -/
theorem lf_behind_host (line : LineReading text) (ends : text.getLast? = some lf)
    {front rest : List UInt8} (split : line.headers = front ++ (ascii "Host:" ++ rest)) :
    lf ∈ rest := by
  have whole : text = (ascii "GET" ++ space :: (line.target ++ space ::
      (line.version ++ cr :: lf :: front))) ++ (ascii "Host:" ++ rest) :=
    line.text.trans (by rw [split]; simp)
  have nonempty : ascii "Host:" ++ rest ≠ [] :=
    fun none => absurd (List.append_eq_nil_iff.mp none).1 (by decide)
  rw [whole, List.getLast?_append_of_ne_nil _ nonempty] at ends
  obtain host | behind := List.mem_append.mp (List.mem_of_getLast? ends)
  · exact absurd host (by decide)
  · exact behind

end LineReading

namespace Reading

/-- A value that ended is read the same when more is received behind it. -/
def extend (reading : Reading text) (ended : reading.after ≠ []) (extra : List UInt8) :
    Reading (text ++ extra) where
  line := reading.line.extend extra
  front := reading.front
  blanks := reading.blanks
  value := reading.value
  after := reading.after ++ extra
  text := (congrArg (· ++ extra) reading.text).trans (by simp)
  hostFirst := reading.hostFirst.append (by decide) extra
  blank := reading.blank
  nonblank := reading.nonblank
  valueLine := reading.valueLine
  valueEnd := by
    intro c head
    rw [List.head?_append_of_ne_nil _ ended] at head
    exact reading.valueEnd c head
  room := fun none => absurd (List.append_eq_nil_iff.mp none).1 ended

/-- Where the text ends with an LF, the value ended before. -/
theorem after_ne_nil (reading : Reading text) (ends : text.getLast? = some lf) :
    reading.after ≠ [] := by
  intro none
  have member := reading.line.lf_behind_host ends reading.text
  rw [none, List.append_nil] at member
  obtain blank | value := List.mem_append.mp member
  · exact absurd (reading.blank lf blank) (by decide)
  · exact absurd rfl (reading.valueLine lf value).2

end Reading

/-- The parser rejects a text unless there is a request line and a `Host:` behind it. -/
theorem parseDecision_eq_rejects_iff (fits : text.length ≤ bufSize) :
    parseDecision text = .rejects ↔
      ¬ ∃ (line : LineReading text) (i : ℕ), FirstAt (ascii "Host:") line.headers i := by
  unfold parseDecision
  cases parsed : parseRequest text with
  | ok request =>
      obtain ⟨reading, _⟩ := exists_reading parsed
      apply iff_of_false
      · exact Decision.noConfusion
      · exact not_not_intro ⟨reading.line, reading.front.length, reading.hostFirst⟩
  | error stop =>
      cases stop with
      | fault =>
          obtain ⟨_, line, front, _, _, first, _⟩ :=
            (Buffers.parseRequest_fault_iff fits).mp parsed
          apply iff_of_false
          · exact Decision.noConfusion
          · exact not_not_intro ⟨line, front.length, first⟩
      | rejected why =>
          apply iff_of_true
          · rfl
          · rintro ⟨line, i, first⟩
            exact Sections.not_rejected line first why parsed

/-- What stands behind a complete line does not change the decision, if the first `Host:`
is not there. -/
theorem parseDecision_append (ends : text.getLast? = some lf)
    (fits : (text ++ extra).length ≤ bufSize)
    (early : ∀ (line : LineReading (text ++ extra)) (i : ℕ),
      FirstAt (ascii "Host:") line.headers i → line.stored.headersStart + (i + 5) ≤ text.length) :
    parseDecision (text ++ extra) = parseDecision text ∧ parseDecision text ≠ .faults := by
  have short : text.length ≤ bufSize := (List.prefix_append text extra).length_le.trans fits
  cases parsed : parseRequest text with
  | ok request =>
      obtain ⟨reading, rfl⟩ := exists_reading parsed
      have more := (reading.extend (reading.after_ne_nil ends) extra).parseRequest
      have same : parseDecision text = .continues reading.request := by
        simp only [parseDecision, parsed]
      refine ⟨?_, fun fault => Decision.noConfusion (same.symm.trans fault)⟩
      rw [same]
      simp only [parseDecision, more]
      rfl
  | error stop =>
      cases stop with
      | fault =>
          obtain ⟨_, line, front, rest, split, _, unended⟩ :=
            (Buffers.parseRequest_fault_iff short).mp parsed
          exact absurd rfl (unended lf (line.lf_behind_host ends split)).2
      | rejected why =>
          have rejects : parseDecision text = .rejects := by simp only [parseDecision, parsed]
          rw [rejects]
          refine ⟨(parseDecision_eq_rejects_iff fits).mpr ?_, Decision.noConfusion⟩
          rintro ⟨line, i, first⟩
          have inside := early line i first
          obtain ⟨front, behind, start⟩ := line.exists_front (by omega)
          apply (parseDecision_eq_rejects_iff short).mp rejects
          refine ⟨front, i, ?_⟩
          rw [behind] at first
          apply first.of_append
          rw [← front.drop_headers, List.length_drop, start, length_host]
          omega

end Longer

/-! ## Which streams are decided the same way -/

section Cuts

variable {stream front rest : List UInt8}

theorem getLast?_blank (front : List UInt8) :
    (front ++ ascii "\r\n\r\n").getLast? = some lf := by
  rw [List.getLast?_append_of_ne_nil _ (by decide)]
  rfl

/-- Every run that finds the blank line decides as if nothing had come behind it. -/
theorem HostBeforeBlank.parseDecision_eq (early : HostBeforeBlank stream)
    (split : window stream = front ++ (ascii "\r\n\r\n" ++ rest))
    (blank : FirstAt (ascii "\r\n\r\n") (window stream) front.length)
    {answers : List RecvAnswer} {text : List UInt8} (delivers : Delivers stream answers)
    (ran : receiveAll [] answers = some (.received text)) :
    parseDecision text = parseDecision (front ++ ascii "\r\n\r\n") ∧
      parseDecision text ≠ .faults := by
  obtain ⟨inside, fits, k, first⟩ := delivers.received ran
  obtain ⟨more, whole⟩ : text <+: window stream := List.prefix_take_iff.mpr ⟨inside, fits⟩
  obtain ⟨front', back, rfl, same⟩ := first.split (by decide)
  have place : front'.length = front.length := by
    rw [same]
    exact FirstAt.unique (whole ▸ first.append (by decide) more) blank
  rw [split, List.append_assoc] at whole
  obtain rfl := (List.append_inj whole place).1
  rw [← List.append_assoc] at fits ⊢
  have early' : ∀ (line : LineReading ((front' ++ ascii "\r\n\r\n") ++ back)) (i : ℕ),
      FirstAt (ascii "Host:") line.headers i →
        line.stored.headersStart + (i + 5) ≤ (front' ++ ascii "\r\n\r\n").length := by
    intro line i host
    have grown : ((front' ++ ascii "\r\n\r\n") ++ back) ++ more = window stream := by
      rw [split, ← whole]
      simp
    unfold HostBeforeBlank at early
    rw [← grown] at early blank
    have before := early (line.extend more) i front'.length
      (host.append (by decide) more) (place ▸ blank)
    change line.stored.headersStart + i < front'.length at before
    rw [List.length_append, length_blank]
    omega
  obtain ⟨same, clean⟩ := parseDecision_append (getLast?_blank front') fits early'
  exact ⟨same, same ▸ clean⟩

theorem SameDecision.of_ne_faults {made : Decision} (clean : made ≠ .faults) :
    SameDecision made made := by
  cases made with
  | rejects => exact .rejects
  | continues request => exact .continues rfl rfl rfl
  | faults => exact absurd rfl clean

/-- A rejection is made for any cuts. -/
theorem SameDecision.eq_rejects {made : Decision} (same : SameDecision .rejects made) :
    made = .rejects := by
  cases same
  rfl

/-- A decision is made on a blank line, or there is none in what fits into `buf`. -/
theorem Delivers.decided {answers : List RecvAnswer} {made : Decision}
    (delivers : Delivers stream answers) (decided : decision answers = some made) :
    (∃ text j, receiveAll [] answers = some (.received text) ∧ made = parseDecision text ∧
      FirstAt (ascii "\r\n\r\n") (window stream) j) ∨
    memmemSimple (window stream) (ascii "\r\n\r\n") = none ∧ made = .rejects := by
  obtain ⟨ended, ran, same⟩ := Option.bind_eq_some_iff.mp decided
  cases ended with
  | reading buf => cases same
  | received text =>
      obtain ⟨inside, fits, j, first⟩ := delivers.received ran
      obtain ⟨more, whole⟩ : text <+: window stream := List.prefix_take_iff.mpr ⟨inside, fits⟩
      left
      exact ⟨text, j, ran, (Option.some.inj same).symm, whole ▸ first.append (by decide) more⟩
  | rejected why =>
      right
      exact ⟨delivers.rejected (by decide) (Nat.zero_le _) ran, (Option.some.inj same).symm⟩

/-- A `Host:` in front of the blank line is found for any cuts. -/
theorem HostBeforeBlank.cutFree (early : HostBeforeBlank stream) : CutFree stream := by
  intro first second one other cut cut' decided decided'
  cases found : memmemSimple (window stream) (ascii "\r\n\r\n") with
  | none =>
      have rejects : ∀ {answers made}, Delivers stream answers →
          decision answers = some made → made = .rejects := by
        intro answers made delivers decided
        obtain ⟨_, j, _, _, blank⟩ | ⟨_, same⟩ := delivers.decided decided
        · rw [blank_eq_some_iff.mpr blank] at found
          cases found
        · exact same
      rw [rejects cut decided, rejects cut' decided']
      exact .rejects
  | some j =>
      have blank := blank_eq_some_iff.mp found
      obtain ⟨front, rest, split, rfl⟩ := blank.split (by decide)
      have same : ∀ {answers made}, Delivers stream answers → decision answers = some made →
          made = parseDecision (front ++ ascii "\r\n\r\n") ∧ made ≠ .faults := by
        intro answers made delivers decided
        obtain ⟨text, _, ran, rfl, _⟩ | ⟨missing, _⟩ := delivers.decided decided
        · exact early.parseDecision_eq split blank delivers ran
        · rw [missing] at found
          cases found
      rw [(same cut decided).1, (same cut' decided').1]
      exact .of_ne_faults ((same cut decided).1 ▸ (same cut decided).2)

/-- A stream in one piece, up to some place behind its first blank line. -/
theorem decision_piece {text : List UInt8} (inside : text <+: window stream) {j : ℕ}
    (blank : FirstAt (ascii "\r\n\r\n") text j) :
    Delivers stream [.bytes text] ∧ decision [.bytes text] = some (parseDecision text) := by
  have fits : text.length ≤ bufSize := inside.length_le.trans (List.length_take_le _ _)
  obtain ⟨rest, whole⟩ := inside.trans (List.take_prefix _ _)
  have found := blank_eq_some_iff.mpr blank
  have long : 0 < text.length := by
    have room := blank.here.length_le
    rw [length_blank, List.length_drop] at room
    omega
  constructor
  · rw [← whole]
    exact .block text (.pending rest)
  · simp [decision, receiveAll, receive, found, long, fits]

/-- Only one there is. -/
theorem CutFree.hostBeforeBlank (free : CutFree stream) : HostBeforeBlank stream := by
  intro line i j host blank
  obtain ⟨front, rest, split, rfl⟩ := blank.split (by decide)
  have whole : window stream = (front ++ ascii "\r\n\r\n") ++ rest := by
    rw [split, List.append_assoc]
  revert line
  rw [whole] at blank ⊢
  intro line host
  have size : (front ++ ascii "\r\n\r\n").length = front.length + 4 := by
    rw [List.length_append, length_blank]
  have short : ((front ++ ascii "\r\n\r\n") ++ rest).length ≤ bufSize :=
    whole ▸ List.length_take_le _ _
  -- the stream up to its blank line, and all of it
  obtain ⟨cut, decided⟩ := decision_piece ⟨rest, whole.symm⟩
    (FirstAt.of_append blank (by rw [size, length_blank]))
  obtain ⟨cut', decided'⟩ := decision_piece ⟨[], by rw [whole, List.append_nil]⟩ blank
  have same := free _ _ _ _ cut cut' decided decided'
  have accepts : parseDecision ((front ++ ascii "\r\n\r\n") ++ rest) ≠ .rejects := fun rejects =>
    (parseDecision_eq_rejects_iff short).mp rejects ⟨line, i, host⟩
  have found : parseDecision (front ++ ascii "\r\n\r\n") ≠ .rejects := by
    intro rejects
    rw [rejects] at same
    exact accepts same.eq_rejects
  obtain ⟨line', i', host'⟩ := not_not.mp fun none => found
    ((parseDecision_eq_rejects_iff ((List.prefix_append _ rest).length_le.trans short)).mpr none)
  have inside := line.host_inside host line' host'
  omega

/-- **Which streams are decided the same way however they are cut.** -/
theorem cutFree_iff (stream : List UInt8) : CutFree stream ↔ HostBeforeBlank stream :=
  ⟨CutFree.hostBeforeBlank, HostBeforeBlank.cutFree⟩

end Cuts

/-- A request whose `Host:` stands behind its blank line. -/
def bodyHost : List UInt8 := ascii "GET / HTTP/1.0\r\n\r\nHost: a"

/-- Cut behind the blank line it is rejected, in one piece it is accepted. -/
theorem decision_depends_on_cut : ¬ CutFree bodyHost := by
  intro free
  have split : bodyHost = ascii "GET / HTTP/1.0\r\n\r\n" ++ ascii "Host: a" := by decide
  have cut : Delivers bodyHost [.bytes (ascii "GET / HTTP/1.0\r\n\r\n")] := by
    rw [split]
    exact .block _ (.pending _)
  have cut' : Delivers bodyHost [.bytes bodyHost] := by
    simpa using Delivers.block bodyHost (.pending [])
  have rejects : decision [.bytes (ascii "GET / HTTP/1.0\r\n\r\n")] = some .rejects := by
    decide +kernel
  have continues : decision [.bytes bodyHost] =
      some (.continues ⟨⟨ascii "a", by decide⟩, ⟨ascii "/", by decide⟩⟩) := by
    decide +kernel
  exact Decision.noConfusion (free _ _ _ _ cut cut' rejects continues).eq_rejects

end OperationSystems.Proxy
