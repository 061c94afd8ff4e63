import OperationSystems.Proxy.Bounds
import OperationSystems.Proxy.Segments

/-!
# The verdict on a request

`handle_client` parses a request in place: it searches with pointers, stores NULs into the
text and reads back what stands in front of them. Here the same is said about the text
alone, without a pointer, a store or an array: what is in front of the first CRLF is the
request line, and so on. The two agree on every text, on the message where the request is
refused as well as on the host and the uri.
-/

namespace OperationSystems.Proxy

open CStrings
open Buffers (access_some require_some require_none ok_bind error_bind)

/-! ## The text -/

/-- What stands in front of the first NUL. -/
def visiblePart (text : List UInt8) : List UInt8 := text.takeWhile (· != 0)

/-- The target in a request line, or why the line is refused. -/
def readLine (line : List UInt8) : Except Reject (List UInt8) :=
  match cut [space] (visiblePart line) with
  | none => .error .noSpaceAfterMethod
  | some (method, rest) =>
      match cut [space] rest with
      | none => .error .noSpaceBeforeHttp
      | some (target, _) =>
          if method = ascii "GET" then .ok target else .error .unsupportedMethod

/-- The host in what stands behind `Host:`. -/
def readValue (field : List UInt8) : List UInt8 :=
  (visiblePart ((field.dropWhile fun c => c == space || c == tab).takeWhile
    fun c => c != cr && c != lf)).take (hostSize - 1)

/-- The host and the uri that a text asks for, or why it is refused. -/
def readRequest (text : List UInt8) : Except Reject (List UInt8 × List UInt8) :=
  match cut (ascii "\r\n") text with
  | none => .error .noCrlf
  | some (line, headers) =>
      match readLine line with
      | .error why => .error why
      | .ok target =>
          match cut (ascii "Host:") headers with
          | none => .error .noHostHeader
          | some (_, field) => .ok (readValue field, uriOf target)

/-! ## The request line -/

section Line

variable {line headers method rest : List UInt8}

/-- What is behind the part in front of the first NUL is nothing, or begins with it. -/
theorem exists_hidden (text : List UInt8) : ∃ more, text = visiblePart text ++ more ∧
    ∀ back, ∃ back', more ++ 0 :: back = 0 :: back' := by
  refine ⟨text.dropWhile (· != 0), List.takeWhile_append_dropWhile.symm, fun back => ?_⟩
  cases hidden : text.dropWhile (· != 0) with
  | nil => exact ⟨back, rfl⟩
  | cons c more =>
      have stops := not_of_mem_head?_dropWhile (p := (· != 0)) (l := text) (c := c)
        (by rw [hidden]; rfl)
      obtain rfl : c = 0 := by simpa using stops
      exact ⟨more ++ 0 :: back, rfl⟩

theorem not_mem_visiblePart (text : List UInt8) : 0 ∉ visiblePart text := fun member => by
  simpa using List.mem_takeWhile_imp member

/-- What is loaded from the front of a text behind which a NUL was stored. -/
theorem loadString_of_nul_behind {shown more : List UInt8} (front : List UInt8)
    (noNul : 0 ∉ shown) (hidden : ∀ back, ∃ back', more ++ 0 :: back = 0 :: back')
    (back : List UInt8) :
    loadString (front ++ (shown ++ (more ++ 0 :: back))) front.length = some ⟨shown, noNul⟩ := by
  obtain ⟨back', starts⟩ := hidden back
  refine loadString_eq_some_iff.mpr ⟨back', ?_⟩
  rw [List.drop_left, starts]

theorem strchr_eq_none {s : CString} {c : UInt8} (absent : c ∉ s.bytes) : strchr s c = none := by
  cases found : strchr s c with
  | none => rfl
  | some i =>
      obtain ⟨front, back, split, _⟩ := strchr_eq_some_iff.mp found
      exact absurd (by simp [split]) absent

/-- The code on a line that is refused. -/
theorem splitRequestLine_refused {text : List UInt8} {why : Reject}
    (found : cut (ascii "\r\n") text = some (line, headers))
    (refused : readLine line = .error why) :
    splitRequestLine text = .error (.rejected why) := by
  obtain ⟨split, first⟩ := cut_eq_some_iff.mp found
  replace split : text = line ++ cr :: lf :: headers := split
  obtain ⟨more, whole, hidden⟩ := exists_hidden line
  have shown := not_mem_visiblePart line
  unfold readLine at refused
  unfold splitRequestLine
  rw [(memmemSimple_eq_some_iff (by decide)).mpr first, require_some, ok_bind, split,
    storeNul_inside, access_some, ok_bind]
  generalize visiblePart line = seen at refused whole shown
  subst whole
  have loaded := loadString_of_nul_behind [] shown hidden (lf :: headers)
  rw [List.nil_append, ← List.append_assoc] at loaded
  rw [List.length_nil] at loaded
  rw [loaded, access_some, ok_bind]
  cases spaced : cut [space] seen with
  | none =>
      rw [spaced] at refused
      obtain rfl := Except.error.inj refused
      rw [strchr_eq_none (cut_singleton_eq_none_iff.mp spaced)]
      rfl
  | some parts =>
      obtain ⟨method, rest⟩ := parts
      rw [spaced] at refused
      obtain ⟨rfl, noSpace⟩ := cut_singleton_eq_some_iff.mp spaced
      have methodNoNul : 0 ∉ method := fun member => shown (by simp [member])
      have restNoNul : 0 ∉ rest := fun member => shown (by simp [member])
      have place : strchr ⟨method ++ space :: rest, shown⟩ space = some method.length :=
        strchr_eq_some_iff.mpr ⟨method, rest, rfl, noSpace, rfl⟩
      have shape : method ++ space :: rest ++ more ++ 0 :: lf :: headers =
          method ++ space :: (rest ++ (more ++ 0 :: lf :: headers)) := by simp
      rw [place, require_some, ok_bind, shape, storeNul_inside, access_some, ok_bind]
      have loaded := loadString_of_nul_behind (method ++ [0]) restNoNul hidden (lf :: headers)
      have behind : method ++ [0] ++ (rest ++ (more ++ 0 :: lf :: headers)) =
          method ++ 0 :: (rest ++ (more ++ 0 :: lf :: headers)) := by simp
      rw [behind, List.length_append, List.length_singleton] at loaded
      dsimp only
      rw [loaded, access_some, ok_bind]
      cases spaced' : cut [space] rest with
      | none =>
          simp only [spaced'] at refused
          obtain rfl := Except.error.inj refused
          rw [strchr_eq_none (cut_singleton_eq_none_iff.mp spaced')]
          rfl
      | some parts =>
          obtain ⟨target, version⟩ := parts
          simp only [spaced'] at refused
          by_cases get : method = ascii "GET"
          · rw [if_pos get] at refused
            cases refused
          · rw [if_neg get] at refused
            obtain rfl := Except.error.inj refused
            obtain ⟨rfl, noSpace'⟩ := cut_singleton_eq_some_iff.mp spaced'
            have place : strchr ⟨target ++ space :: version, restNoNul⟩ space =
                some target.length := strchr_eq_some_iff.mpr ⟨target, version, rfl, noSpace', rfl⟩
            have shape : method ++ 0 :: (target ++ space :: version ++
                (more ++ 0 :: lf :: headers)) = (method ++ 0 :: target) ++ space ::
                  (version ++ (more ++ 0 :: lf :: headers)) := by simp
            have size : method.length + 1 + target.length = (method ++ 0 :: target).length := by
              simp
              omega
            rw [place, require_some, ok_bind, shape, size, storeNul_inside, access_some, ok_bind]
            have verb : loadString ((method ++ 0 :: target) ++ 0 ::
                (version ++ (more ++ 0 :: lf :: headers))) 0 = some ⟨method, methodNoNul⟩ :=
              loadString_eq_some_iff.mpr ⟨_, by rw [List.drop_zero, List.append_assoc]; rfl⟩
            rw [verb, access_some, ok_bind, if_pos get]
            rfl

/-- A line that is not refused is cut so. -/
theorem exists_lineReading_of_read {text target : List UInt8}
    (found : cut (ascii "\r\n") text = some (line, headers))
    (accepted : readLine line = .ok target) :
    ∃ reading : LineReading text, reading.target = target ∧ reading.headers = headers := by
  obtain ⟨split, first⟩ := cut_eq_some_iff.mp found
  replace split : text = line ++ cr :: lf :: headers := split
  obtain ⟨more, whole, _⟩ := exists_hidden line
  have shown := not_mem_visiblePart line
  unfold readLine at accepted
  generalize visiblePart line = seen at accepted whole shown
  subst whole
  cases spaced : cut [space] seen with
  | none => simp only [spaced] at accepted; cases accepted
  | some parts =>
      obtain ⟨method, rest⟩ := parts
      simp only [spaced] at accepted
      obtain ⟨rfl, _⟩ := cut_singleton_eq_some_iff.mp spaced
      cases spaced' : cut [space] rest with
      | none => simp only [spaced'] at accepted; cases accepted
      | some parts =>
          obtain ⟨target', version⟩ := parts
          simp only [spaced'] at accepted
          obtain ⟨rfl, noSpace⟩ := cut_singleton_eq_some_iff.mp spaced'
          by_cases get : method = ascii "GET"
          · rw [if_pos get] at accepted
            obtain rfl := Except.ok.inj accepted
            subst get
            refine ⟨⟨target', version ++ more, headers, ?_, ?_, noSpace, fun member => ?_⟩, rfl,
              rfl⟩
            · rw [split]
              simp
            · convert first using 1
              simp [length_get]
              omega
            · exact shown (by simp [member])
          · rw [if_neg get] at accepted
            cases accepted

end Line

/-! ## The whole request -/

/-- What the reader refuses, the parser rejects with the same message. -/
theorem parseRequest_refused {text : List UInt8} {why : Reject}
    (refused : readRequest text = .error why) : parseRequest text = .error (.rejected why) := by
  unfold readRequest at refused
  unfold parseRequest
  cases found : cut (ascii "\r\n") text with
  | none =>
      simp only [found] at refused
      obtain rfl := Except.error.inj refused
      have absent : memmemSimple text (ascii "\r\n") = none := by
        cases there : memmemSimple text (ascii "\r\n") with
        | none => rfl
        | some i =>
            have first := (memmemSimple_eq_some_iff (by decide)).mp there
            exact absurd first (cut_eq_none_iff.mp found i)
      unfold splitRequestLine
      rw [absent]
      rfl
  | some parts =>
      obtain ⟨line, headers⟩ := parts
      simp only [found] at refused
      cases read : readLine line with
      | error why' =>
          simp only [read] at refused
          obtain rfl := Except.error.inj refused
          rw [splitRequestLine_refused found read]
          rfl
      | ok target =>
          simp only [read] at refused
          obtain ⟨reading, rfl, rfl⟩ := exists_lineReading_of_read found read
          cases host : cut (ascii "Host:") reading.headers with
          | some field => simp only [host] at refused; cases refused
          | none =>
              simp only [host] at refused
              obtain rfl := Except.error.inj refused
              have absent : findHostHeader reading.headers = none := by
                cases there : findHostHeader reading.headers with
                | none => rfl
                | some header =>
                    obtain ⟨i, first, _⟩ := Option.map_eq_some_iff.mp there
                    rw [memmemSimple_eq_some_iff (by decide)] at first
                    exact absurd first (cut_eq_none_iff.mp host i)
              have loaded : loadString reading.stored.buf reading.stored.path = _ :=
                loadString_target reading.noNul (Nat.zero_le _)
              rw [reading.splitRequestLine, ok_bind, loaded, access_some, ok_bind,
                reading.drop_stored, absent, require_none, error_bind]

/-- How the headers of a line are cut at the first `Host:`. -/
theorem exists_reading_of_field {text front field : List UInt8} {line : LineReading text}
    (fits : text.length ≤ bufSize) (inside : ¬ Buffers.RunsOut text)
    (split : line.headers = front ++ (ascii "Host:" ++ field))
    (first : FirstAt (ascii "Host:") line.headers front.length) :
    ∃ reading : Reading text, reading.line = line ∧ reading.value =
      (field.dropWhile fun c => c == space || c == tab).takeWhile fun c => c != cr && c != lf := by
  obtain ⟨blanks, tail, whole, same, shown⟩ : ∃ blanks tail, field = blanks ++ tail ∧
      (∀ c ∈ blanks, c = space ∨ c = tab) ∧
      tail = field.dropWhile fun c => c == space || c == tab :=
    ⟨_, _, List.takeWhile_append_dropWhile.symm,
      fun c member => by simpa using List.mem_takeWhile_imp member, rfl⟩
  obtain ⟨value, after, cutTail, clean, ended, value'⟩ : ∃ value after, tail = value ++ after ∧
      (∀ c ∈ value, c ≠ cr ∧ c ≠ lf) ∧ (∀ c ∈ after.head?, c = cr ∨ c = lf) ∧
      value = tail.takeWhile fun c => c != cr && c != lf :=
    ⟨_, _, List.takeWhile_append_dropWhile.symm,
      fun c member => by simpa using List.mem_takeWhile_imp member,
      fun c head => or_iff_not_imp_left.mpr (by simpa using not_of_mem_head?_dropWhile head), rfl⟩
  have nonblank : ∀ c ∈ value.head?, c ≠ space ∧ c ≠ tab := by
    intro c head
    have start : c ∈ tail.head? := by
      rw [cutTail]
      cases value with
      | nil => cases head
      | cons d rest => exact head
    rw [shown] at start
    simpa using not_of_mem_head?_dropWhile start
  have room : after = [] → text.length < bufSize := by
    rintro rfl
    refine lt_of_le_of_ne fits fun full => inside ?_
    refine ⟨full, line, front, field, split, first, fun c member => ?_⟩
    rw [whole, cutTail, List.append_nil, List.mem_append] at member
    rcases member with blank | other
    · rcases same c blank with rfl | rfl <;> decide
    · exact clean c other
  have text' : line.headers = front ++ (ascii "Host:" ++ (blanks ++ (value ++ after))) := by
    rw [split, whole, cutTail]
  exact ⟨⟨line, front, blanks, value, after, text', first, same, nonblank, clean, ended, room⟩, rfl,
    by rw [← shown]; exact value'⟩

/-- What the reader accepts, the parser makes a request of. -/
theorem parseRequest_accepted {text host uri : List UInt8} (fits : text.length ≤ bufSize)
    (inside : ¬ Buffers.RunsOut text) (accepted : readRequest text = .ok (host, uri)) :
    ∃ request, parseRequest text = .ok request ∧ request.host.bytes = host ∧
      request.uri.bytes = uri := by
  unfold readRequest at accepted
  cases found : cut (ascii "\r\n") text with
  | none => simp only [found] at accepted; cases accepted
  | some parts =>
      obtain ⟨line, headers⟩ := parts
      simp only [found] at accepted
      cases read : readLine line with
      | error why => simp only [read] at accepted; cases accepted
      | ok target =>
          simp only [read] at accepted
          obtain ⟨cutLine, rfl, rfl⟩ := exists_lineReading_of_read found read
          cases host' : cut (ascii "Host:") cutLine.headers with
          | none => simp only [host'] at accepted; cases accepted
          | some parts =>
              obtain ⟨front, field⟩ := parts
              simp only [host'] at accepted
              obtain ⟨rfl, rfl⟩ := Prod.mk.inj (Except.ok.inj accepted)
              obtain ⟨split, first⟩ := cut_eq_some_iff.mp host'
              obtain ⟨reading, same, value⟩ := exists_reading_of_field fits inside split first
              refine ⟨reading.request, reading.parseRequest, ?_, ?_⟩
              · change ((reading.value).takeWhile (· != 0)).take _ = _
                rw [value]
                rfl
              · change uriOf reading.line.target = _
                rw [same]

/-! ## The handler -/

/-- A text with which the loop of `recv` ends fits into `buf` and has a blank line. -/
theorem received_text {buf text : List UInt8} {answers : List RecvAnswer}
    (ran : receiveAll buf answers = some (.received text)) :
    text.length ≤ bufSize ∧ ∃ j, FirstAt (ascii "\r\n\r\n") text j := by
  induction answers generalizing buf with
  | nil => cases ran
  | cons answer answers ih =>
      rcases receiveAll_cons ran with ⟨next, _, rest⟩ | ⟨answered, _⟩
      · exact ih rest
      · cases answer with
        | bytes received =>
            rcases receive_bytes answered with ⟨fits, ⟨blank, same⟩ | ⟨_, other | ⟨_, other⟩⟩⟩
            · obtain rfl := Receive.received.inj same
              exact ⟨fits, blank⟩
            · cases other
            · cases other
        | _ => cases answered

/-- Behind a blank line there is a first line. -/
theorem readRequest_ne_noCrlf {text : List UInt8} {j : ℕ}
    (blank : FirstAt (ascii "\r\n\r\n") text j) : readRequest text ≠ .error .noCrlf := by
  intro refused
  unfold readRequest at refused
  cases found : cut (ascii "\r\n") text with
  | none =>
      obtain ⟨front, back, split, _⟩ := blank.split (by decide)
      have line : text = front ++ (ascii "\r\n" ++ (ascii "\r\n" ++ back)) := split
      obtain ⟨i, first⟩ : ∃ i, FirstAt (ascii "\r\n") text i := line ▸ exists_firstAt
      exact cut_eq_none_iff.mp found i first
  | some parts =>
      obtain ⟨line, headers⟩ := parts
      simp only [found] at refused
      cases read : readLine line with
      | error why =>
          simp only [read] at refused
          obtain rfl := Except.error.inj refused
          unfold readLine at read
          split at read
          · cases read
          · split at read
            · cases read
            · split at read <;> cases read
      | ok target =>
          simp only [read] at refused
          split at refused <;> cases refused

/-- The handler on a text that was received: its arrays hold it, and it is parsed. -/
theorem handleClient_of_received (memory : Buffers.Memory) {answers : List RecvAnswer}
    {text : List UInt8} (received : receiveAll [] answers = some (.received text)) :
    ∃ filled : Buffers.Memory, filled.buf.Holds text ∧
      Buffers.handleClient memory answers = some (match Buffers.parse filled text.length with
        | .ok memory => .parsed memory
        | .error stop => .stopped stop) := by
  have tracks := Buffers.receiveAll_tracks (Buffers.holds_nil memory.buf) answers
  rw [List.length_nil, received] at tracks
  unfold Buffers.handleClient
  generalize Buffers.receiveAll memory 0 answers = outcome at tracks ⊢
  cases tracks with
  | some related =>
      cases related with
      | @received filled _ holds => exact ⟨filled, holds, rfl⟩

/-- **The verdict on a request.** Whatever the stack holds and however the bytes arrive: where
the received text does not run out, `handle_client` closes the connection with the message
that the text alone calls for, which is never that of a missing CRLF, or goes on with the
host and the uri that the text alone has, and `host` and `key` hold them. -/
theorem request_verdict (memory : Buffers.Memory) {answers : List RecvAnswer}
    {text : List UInt8} (received : receiveAll [] answers = some (.received text))
    (inside : ¬ Buffers.RunsOut text) :
    (∀ why, readRequest text = .error why → why ≠ .noCrlf ∧
      Buffers.handleClient memory answers = some (.stopped (.rejected why))) ∧
      ∀ host uri, readRequest text = .ok (host, uri) → ∃ after request,
        Buffers.handleClient memory answers = some (.parsed after) ∧
          request.host.bytes = host ∧ request.uri.bytes = uri ∧
            Buffers.Prepared after request := by
  obtain ⟨fits, j, blank⟩ := received_text received
  obtain ⟨filled, holds, handled⟩ := handleClient_of_received memory received
  have agree := Buffers.parse_agrees holds
  rw [handled]
  refine ⟨fun why refused => ⟨?_, ?_⟩, fun host uri accepted => ?_⟩
  · rintro rfl
    exact readRequest_ne_noCrlf blank refused
  · rw [parseRequest_refused refused] at agree
    generalize Buffers.parse filled text.length = parsed at agree ⊢
    cases agree
    rfl
  · obtain ⟨request, parsed', host', uri'⟩ := parseRequest_accepted fits inside accepted
    rw [parsed'] at agree
    generalize Buffers.parse filled text.length = parsed at agree ⊢
    cases agree with
    | @ok after _ prepared => exact ⟨after, request, rfl, host', uri', prepared⟩

/-- A request with another method, and one for an absolute target. -/
def deleteRequest : List UInt8 := ascii "DELETE / HTTP/1.0\r\nHost: a\r\n\r\n"
def absoluteRequest : List UInt8 := ascii "GET http://a/b HTTP/1.0\r\nHost: \tc\r\n\r\n"

/-- The theorem on a request that is refused, in two pieces, and on one that is accepted. -/
theorem request_verdict_run :
    Buffers.handleClient Buffers.blankMemory
        [.bytes (deleteRequest.take 4), .interrupted, .bytes (deleteRequest.drop 4)] =
      some (.stopped (.rejected .unsupportedMethod)) ∧
    ∃ after request, Buffers.handleClient Buffers.blankMemory [.bytes absoluteRequest] =
      some (.parsed after) ∧ request.host.bytes = ascii "c" ∧ request.uri.bytes = ascii "/b" ∧
        Buffers.Prepared after request := by
  have first : receiveAll [] [.bytes (deleteRequest.take 4), .interrupted,
      .bytes (deleteRequest.drop 4)] = some (.received deleteRequest) := by decide +kernel
  have second : receiveAll [] [.bytes absoluteRequest] = some (.received absoluteRequest) := by
    decide +kernel
  have short : ¬ Buffers.RunsOut deleteRequest := fun full => absurd full.1 (by decide +kernel)
  have short' : ¬ Buffers.RunsOut absoluteRequest := fun full => absurd full.1 (by decide +kernel)
  have refused : readRequest deleteRequest = .error .unsupportedMethod := by decide +kernel
  have accepted : readRequest absoluteRequest = .ok (ascii "c", ascii "/b") := by decide +kernel
  exact ⟨((request_verdict Buffers.blankMemory first short).1 _ refused).2,
    (request_verdict Buffers.blankMemory second short').2 _ _ accepted⟩

end OperationSystems.Proxy
