import OperationSystems.Proxy.Bounds

/-!
# Whose value the host is

`find_host_header` takes the first `Host:` in everything that follows the request line,
and `handle_client` copies at most 255 bytes of what stands there. For a request with a
header section this is the value of its first `Host` line exactly when that `Host:` starts
a header line and the value fits.
-/

namespace OperationSystems.Proxy

open CStrings

abbrev colon : UInt8 := 58

/-- A header line: a field name, a colon, and a value. -/
structure HeaderLine where
  name : List UInt8
  value : List UInt8
  noColon : colon ∉ name
  clean : ∀ c ∈ name ++ value, c ≠ 0 ∧ c ≠ cr ∧ c ≠ lf

namespace HeaderLine

variable (line : HeaderLine)

def text : List UInt8 := line.name ++ colon :: (line.value ++ [cr, lf])

/-- The blanks in front of the value. -/
def blanks : List UInt8 := line.value.takeWhile fun c => c == space || c == tab

/-- The value without its leading blanks. -/
def trimmed : List UInt8 := line.value.dropWhile fun c => c == space || c == tab

end HeaderLine

/-- A request as it was received: the request line, a header section, the empty line, and
what follows it. -/
structure Sections (buf : List UInt8) where
  requestLine : List UInt8
  lines : List HeaderLine
  body : List UInt8
  text : buf = requestLine ++ cr :: lf :: (lines.flatMap HeaderLine.text ++ cr :: lf :: body)
  lineEnd : FirstAt (ascii "\r\n") buf requestLine.length
  fits : buf.length ≤ bufSize

/-- `host_start`, as an index into `buf`. -/
def hostStart (buf : List UInt8) : Except Stop ℕ := do
  let line ← splitRequestLine buf
  let header ← require .noHostHeader (findHostHeader (line.buf.drop line.headersStart))
  return line.headersStart + header

namespace Sections

variable {buf : List UInt8} (sections : Sections buf)

/-- What follows the request line. -/
def headers : List UInt8 :=
  sections.lines.flatMap HeaderLine.text ++ cr :: lf :: sections.body

/-- `line` is the first header line with the field name `Host`, behind the lines `before`. -/
def FirstHost (before : List HeaderLine) (line : HeaderLine) : Prop :=
  (∃ after, sections.lines = before ++ line :: after) ∧ line.name = ascii "Host" ∧
    ∀ other ∈ before, other.name ≠ ascii "Host"

/-- Where the value of a `Host` line behind the lines `before` starts. -/
def valueStart (before : List HeaderLine) (line : HeaderLine) : ℕ :=
  sections.requestLine.length + 2 +
    ((before.flatMap HeaderLine.text).length + 5 + line.blanks.length)

/-- The connection is closed with a message, or the host is the whole value of the first
`Host` line and is read from there. -/
def HostIsHeader : Prop :=
  (∃ why, parseRequest buf = .error (.rejected why)) ∨
    ∃ request before line, parseRequest buf = .ok request ∧ sections.FirstHost before line ∧
      hostStart buf = .ok (sections.valueStart before line) ∧ request.host.bytes = line.trimmed

/-- If the request line is one of a GET, the first `Host:` behind it starts a header line
whose value fits into `host`. -/
def HostFirst : Prop :=
  ∀ (line : LineReading buf) (i : ℕ), FirstAt (ascii "Host:") line.headers i →
    ∃ before header after, sections.lines = before ++ header :: after ∧
      (before.flatMap HeaderLine.text).length = i ∧ header.trimmed.length < hostSize

end Sections

/-! ## Where a value starts -/

theorem drop_of_eq_append (front : List UInt8) {l back : List UInt8} {n : ℕ}
    (whole : l = front ++ back) (size : front.length = n) : l.drop n = back := by
  rw [whole, ← size, List.drop_left]

/-- A byte that stops a loop bounds how far it gets. -/
theorem length_takeWhile_le {p : UInt8 → Bool} {l : List UInt8} {m : ℕ} {c : UInt8}
    (here : l[m]? = some c) (stops : p c = false) : (l.takeWhile p).length ≤ m := by
  by_contra later
  have inside : m < (l.takeWhile p).length := not_le.mp later
  have same : (l.takeWhile p)[m]? = some c := by
    obtain ⟨rest, whole⟩ := List.takeWhile_prefix p (l := l)
    rw [← whole, List.getElem?_append_left inside] at here
    exact here
  have passes := List.mem_takeWhile_imp (List.mem_of_getElem? same)
  rw [stops] at passes
  cases passes

namespace HeaderLine

variable (line : HeaderLine) {rest tail : List UInt8}

/-- The value of a header is its blanks and what they are in front of. -/
theorem blanks_append_trimmed : line.blanks ++ line.trimmed = line.value :=
  List.takeWhile_append_dropWhile

/-- What the loop over blanks skips. -/
theorem takeWhile_blanks :
    (line.value ++ cr :: tail).takeWhile (fun c => c == space || c == tab) = line.blanks := by
  have passes : ∀ c ∈ line.blanks, (c == space || c == tab) = true :=
    fun c member => List.mem_takeWhile_imp (p := fun c => c == space || c == tab) member
  rw [← line.blanks_append_trimmed, List.append_assoc, List.takeWhile_append_of_pos passes]
  cases trimmed : line.trimmed with
  | nil => simp [cr, space, tab]
  | cons c more =>
      have head : c ∈ (line.value.dropWhile fun c => c == space || c == tab).head? := by
        change c ∈ line.trimmed.head?
        rw [trimmed]
        rfl
      have stops := not_of_mem_head?_dropWhile head
      simp [stops]

theorem mem_value_of_mem_trimmed {c : UInt8} (member : c ∈ line.trimmed) : c ∈ line.value := by
  rw [← line.blanks_append_trimmed]
  exact List.mem_append_right _ member

/-- The value up to the end of the line. -/
theorem takeWhile_trimmed (tail : List UInt8) :
    ((line.value ++ cr :: tail).drop line.blanks.length).takeWhile
      (fun c => c != cr && c != lf) = line.trimmed := by
  rw [← line.blanks_append_trimmed, List.append_assoc, List.drop_left,
    List.takeWhile_append_of_pos]
  · simp
  · intro c member
    have clean := line.clean c (List.mem_append_right _ (line.mem_value_of_mem_trimmed member))
    simp [clean.2.1, clean.2.2]

/-- The value is read up to its end. -/
theorem noNul_trimmed : line.trimmed.takeWhile (· != 0) = line.trimmed := by
  apply List.takeWhile_eq_self_iff.mpr
  intro c member
  have clean := line.clean c (List.mem_append_right _ (line.mem_value_of_mem_trimmed member))
  simpa using clean.1

/-- A header line that starts with `Host:` has that field name. -/
theorem of_host (same : ascii "Host:" ++ rest = line.text ++ tail) :
    line.name = ascii "Host" ∧ rest = line.value ++ cr :: lf :: tail := by
  have front : ∀ name more : List UInt8, colon ∉ name →
      (name ++ colon :: more).takeWhile (· != colon) = name := by
    intro name more absent
    rw [List.takeWhile_append_of_pos]
    · simp
    · intro c member
      have other : c ≠ colon := fun is => absent (is ▸ member)
      simpa using other
  have shape : ascii "Host" ++ colon :: rest =
      line.name ++ colon :: (line.value ++ cr :: lf :: tail) := by
    have text : ascii "Host:" = ascii "Host" ++ [colon] := by decide
    rw [text] at same
    simpa [HeaderLine.text] using same
  have name : ascii "Host" = line.name := by
    rw [← front (ascii "Host") rest (by decide), shape, front _ _ line.noColon]
  rw [← name] at shape ⊢
  exact ⟨rfl, (List.cons.inj (List.append_cancel_left shape)).2⟩

/-- A `Host` line in front of what follows it. -/
theorem text_of_host (host : line.name = ascii "Host") :
    line.text ++ tail = ascii "Host:" ++ (line.value ++ cr :: lf :: tail) := by
  have text : ascii "Host:" = ascii "Host" ++ [colon] := by decide
  rw [HeaderLine.text, host, text]
  simp

end HeaderLine

/-- Between two occurrences of `Host:` the blanks behind the first one end. -/
theorem value_before_next {headers : List UInt8} {i k : ℕ}
    (here : ascii "Host:" <+: headers.drop i) (there : ascii "Host:" <+: headers.drop k)
    (before : i < k) :
    i + 5 + ((headers.drop (i + 5)).takeWhile fun c => c == space || c == tab).length ≤ k := by
  obtain ⟨rest, behind⟩ := there
  have head : headers[k]? = some 72 := by
    rw [← Nat.add_zero k, ← List.getElem?_drop, ← behind]
    rfl
  have apart : i + 5 ≤ k := by
    by_contra close
    obtain ⟨rest', behind'⟩ := here
    have five := length_host
    have other : ∀ m < 4, (ascii "Host:")[m + 1]? ≠ some 72 := by decide
    have same : (headers.drop i)[k - i - 1 + 1]? = (ascii "Host:")[k - i - 1 + 1]? := by
      rw [← behind', List.getElem?_append_left (by omega)]
    have place : i + (k - i - 1 + 1) = k := by omega
    rw [List.getElem?_drop, place] at same
    exact other (k - i - 1) (by omega) (same.symm.trans head)
  have stops : (headers.drop (i + 5))[k - (i + 5)]? = some 72 := by
    rw [List.getElem?_drop, Nat.add_sub_cancel' apart]
    exact head
  have short := length_takeWhile_le (p := fun c => c == space || c == tab) stops (by decide)
  omega

/-! ## What the parser takes -/

/-- The headers behind the request line. -/
theorem LineReading.drop_headers {buf : List UInt8} (line : LineReading buf) :
    buf.drop line.stored.headersStart = line.headers := by
  apply drop_of_eq_append (ascii "GET" ++ space :: (line.target ++
    space :: (line.version ++ [cr, lf])))
  · simpa using line.text
  · simp only [LineReading.stored, List.length_append, List.length_cons, List.length_nil,
      length_get]
    omega

/-- The bytes of the host are those at `host_start`. -/
theorem host_read_from {buf : List UInt8} {request : Request}
    (parsed : parseRequest buf = .ok request) :
    ∃ start, hostStart buf = .ok start ∧ request.host.bytes <+: buf.drop start := by
  obtain ⟨reading, rfl⟩ := exists_reading parsed
  refine ⟨reading.line.stored.headersStart + (reading.front.length + 5 + reading.blanks.length),
    ?_, ?_⟩
  · unfold hostStart
    rw [reading.line.splitRequestLine, Buffers.ok_bind, reading.line.drop_stored,
      reading.findHostHeader_eq]
    rfl
  · have behind : buf.drop (reading.line.stored.headersStart +
        (reading.front.length + 5 + reading.blanks.length)) = reading.value ++ reading.after := by
      rw [← List.drop_drop, reading.line.drop_headers]
      apply drop_of_eq_append (reading.front ++ (ascii "Host:" ++ reading.blanks))
      · simpa using reading.text
      · simp only [List.length_append, length_host]
        omega
    rw [behind]
    exact ((List.take_prefix _ _).trans (List.takeWhile_prefix _)).trans (List.prefix_append _ _)

namespace Sections

variable {buf : List UInt8} (sections : Sections buf)

/-- The request line ends where the parser says. -/
theorem headers_eq (line : LineReading buf) : line.headers = sections.headers ∧
    line.stored.headersStart = sections.requestLine.length + 2 := by
  have place := line.lineEnd.unique sections.lineEnd
  have mine : buf.drop (sections.requestLine.length + 2) = sections.headers := by
    apply drop_of_eq_append (sections.requestLine ++ [cr, lf])
    · rw [List.append_assoc]
      exact sections.text
    · rw [List.length_append]
      rfl
  have start : line.stored.headersStart = sections.requestLine.length + 2 := by
    unfold LineReading.stored
    rw [place]
  have theirs := line.drop_headers
  rw [start, mine] at theirs
  exact ⟨theirs.symm, start⟩

/-- The headers behind the lines `before`. -/
theorem drop_headers {before after : List HeaderLine} {header : HeaderLine}
    (lines : sections.lines = before ++ header :: after) :
    ∃ tail, sections.headers.drop (before.flatMap HeaderLine.text).length =
      header.text ++ tail := by
  refine ⟨after.flatMap HeaderLine.text ++ cr :: lf :: sections.body, ?_⟩
  unfold headers
  rw [lines, List.flatMap_append, List.flatMap_cons, List.append_assoc, List.drop_left,
    List.append_assoc]

/-- The host is taken from behind the first `Host:`, wherever that lies. -/
theorem hostStart_of_first (line : LineReading buf) {i : ℕ}
    (first : FirstAt (ascii "Host:") line.headers i) :
    hostStart buf = .ok (sections.requestLine.length + 2 + (i + 5 +
      ((line.headers.drop (i + 5)).takeWhile fun c => c == space || c == tab).length)) := by
  unfold hostStart
  rw [line.splitRequestLine, Buffers.ok_bind, line.drop_stored,
    Buffers.findHostHeader_of_first first, Buffers.require_some, Buffers.ok_bind,
    (sections.headers_eq line).2]
  rfl

/-- A `Host:` that starts a header line, and what stands behind it. -/
theorem host_line {before after : List HeaderLine} {header : HeaderLine}
    (lines : sections.lines = before ++ header :: after)
    (here : ascii "Host:" <+: sections.headers.drop (before.flatMap HeaderLine.text).length) :
    header.name = ascii "Host" ∧ ∃ tail,
      sections.headers.drop ((before.flatMap HeaderLine.text).length + 5) =
        header.value ++ cr :: tail := by
  obtain ⟨tail, behind⟩ := sections.drop_headers lines
  obtain ⟨rest, text⟩ := here
  rw [behind] at text
  obtain ⟨name, value⟩ := HeaderLine.of_host header text
  refine ⟨name, lf :: tail, ?_⟩
  rw [← List.drop_drop, behind, ← text, ← length_host, List.drop_left, value]

/-- If the first `Host:` starts a header line, this is the first one with that name. -/
theorem firstHost_of_first {before after : List HeaderLine} {header : HeaderLine}
    (lines : sections.lines = before ++ header :: after)
    (first : FirstAt (ascii "Host:") sections.headers (before.flatMap HeaderLine.text).length) :
    sections.FirstHost before header := by
  refine ⟨⟨after, lines⟩, (sections.host_line lines first.here).1, fun other member host => ?_⟩
  obtain ⟨front, back, rfl⟩ := List.append_of_mem member
  have lines' : sections.lines = front ++ other :: (back ++ header :: after) := by
    rw [lines, List.append_assoc, List.cons_append]
  obtain ⟨tail, behind⟩ := sections.drop_headers lines'
  apply first.before (front.flatMap HeaderLine.text).length
  · rw [List.flatMap_append, List.length_append, List.flatMap_cons, List.length_append]
    have positive : 0 < other.text.length := by
      rw [HeaderLine.text, List.length_append, List.length_cons]
      omega
    omega
  · rw [behind, HeaderLine.text_of_host other host]
    exact List.prefix_append _ _

/-- The host of an accepted request whose first `Host:` starts a header line. -/
theorem host_bytes (reading : Reading buf) {before after : List HeaderLine}
    {header : HeaderLine} (lines : sections.lines = before ++ header :: after)
    (place : (before.flatMap HeaderLine.text).length = reading.front.length)
    (short : header.trimmed.length < hostSize) :
    reading.request.host.bytes = header.trimmed := by
  have same := (sections.headers_eq reading.line).1
  have first := reading.hostFirst
  rw [same, ← place] at first
  obtain ⟨_, tail, behind⟩ := sections.host_line lines first.here
  have text : sections.headers.drop ((before.flatMap HeaderLine.text).length + 5) =
      reading.blanks ++ (reading.value ++ reading.after) := by
    rw [← same, place, reading.text, drop_host]
  -- both ways of finding the blanks agree
  have blanks : header.blanks.length = reading.blanks.length := by
    have found := reading.findHostHeader_eq
    rw [same, Buffers.findHostHeader_of_first first, behind, header.takeWhile_blanks, place,
      Option.some.injEq] at found
    omega
  have value : reading.value = header.trimmed := by
    rw [← reading.takeWhile_value, ← header.takeWhile_trimmed tail, ← behind, text,
      blanks, List.drop_left]
  change (reading.value.takeWhile (· != 0)).take (hostSize - 1) = _
  rw [value, header.noNul_trimmed]
  exact List.take_of_length_le (Nat.le_sub_one_of_lt short)

/-- A value in a header line does not run out. -/
theorem not_runsOut (hostFirst : sections.HostFirst) : ¬ Buffers.RunsOut buf := by
  rintro ⟨_, line, front, rest, split, first, unended⟩
  obtain ⟨before, header, after, lines, place, _⟩ := hostFirst line front.length first
  have same := (sections.headers_eq line).1
  rw [same] at split first
  rw [← place] at first
  obtain ⟨_, tail, behind⟩ := sections.host_line lines first.here
  rw [place, split, drop_host] at behind
  exact (unended cr (by rw [behind]; simp)).1 rfl

/-- If the first `Host:` begins a line, it is that of the header. -/
theorem hostIsHeader_of_hostFirst (hostFirst : sections.HostFirst) : sections.HostIsHeader := by
  cases parsed : parseRequest buf with
  | error stop =>
      cases stop with
      | rejected why => exact .inl ⟨why, parsed⟩
      | fault =>
          have runsOut := (Buffers.parseRequest_fault_iff sections.fits).mp parsed
          exact absurd runsOut (sections.not_runsOut hostFirst)
  | ok request =>
      obtain ⟨reading, rfl⟩ := exists_reading parsed
      obtain ⟨before, header, after, lines, place, short⟩ :=
        hostFirst reading.line reading.front.length reading.hostFirst
      have same := (sections.headers_eq reading.line).1
      have first := reading.hostFirst
      rw [same, ← place] at first
      obtain ⟨_, tail, behind⟩ := sections.host_line lines first.here
      refine .inr ⟨reading.request, before, header, parsed,
        sections.firstHost_of_first lines first, ?_, sections.host_bytes reading lines place short⟩
      rw [sections.hostStart_of_first reading.line reading.hostFirst, same, ← place, behind,
        header.takeWhile_blanks]
      rfl

/-- A load or store closes no connection. -/
theorem of_access_rejected {α β : Type} {x : Option α} {f : α → Except Stop β} {why : Reject}
    (rejected : (access x >>= f) = .error (.rejected why)) : ∃ a, f a = .error (.rejected why) := by
  cases x with
  | none => cases rejected
  | some a => exact ⟨a, rejected⟩

/-- Behind an accepted request line and a `Host:` the connection is not closed. -/
theorem not_rejected (line : LineReading buf) {i : ℕ}
    (first : FirstAt (ascii "Host:") line.headers i) (why : Reject) :
    parseRequest buf ≠ .error (.rejected why) := by
  intro rejected
  unfold parseRequest at rejected
  rw [line.splitRequestLine, Buffers.ok_bind] at rejected
  obtain ⟨target, rejected⟩ := of_access_rejected rejected
  rw [line.drop_stored, Buffers.findHostHeader_of_first first, Buffers.require_some,
    Buffers.ok_bind] at rejected
  obtain ⟨stored, rejected⟩ := of_access_rejected rejected
  obtain ⟨host, rejected⟩ := of_access_rejected rejected
  cases pointer : findUri line.stored.path target with
  | none =>
      rw [pointer] at rejected
      cases rejected
  | some uri =>
      rw [pointer] at rejected
      obtain ⟨_, rejected⟩ := of_access_rejected rejected
      cases rejected

/-- Only then it is. -/
theorem hostFirst_of_hostIsHeader (isHeader : sections.HostIsHeader) : sections.HostFirst := by
  intro line i first
  have same := (sections.headers_eq line).1
  obtain ⟨why, rejected⟩ | ⟨request, before, header, parsed, ⟨⟨after, lines⟩, host, _⟩, start,
    bytes⟩ := isHeader
  · exact absurd rejected (not_rejected line first why)
  refine ⟨before, header, after, lines, ?_, ?_⟩
  · obtain ⟨tail, behind⟩ := sections.drop_headers lines
    have there : ascii "Host:" <+:
        sections.headers.drop (before.flatMap HeaderLine.text).length := by
      rw [behind, header.text_of_host host]
      exact List.prefix_append _ _
    rw [sections.hostStart_of_first line first, same, valueStart, Except.ok.injEq] at start
    rw [same] at first
    obtain less | equal | more :=
      lt_trichotomy i (before.flatMap HeaderLine.text).length
    · have short := value_before_next first.here there less
      omega
    · exact equal.symm
    · exact absurd there (first.before _ more)
  · obtain ⟨reading, rfl⟩ := exists_reading parsed
    rw [← bytes]
    exact reading.wellFormed.hostShort

/-- **Whose value the host is.** -/
theorem host_is_header_iff : sections.HostIsHeader ↔ sections.HostFirst :=
  ⟨sections.hostFirst_of_hostIsHeader, sections.hostIsHeader_of_hostFirst⟩

end Sections

/-- A request whose first `Host:` is part of another field name. -/
def forwarded : List UInt8 := ascii "GET / HTTP/1.0\r\nX-Host: a\r\nHost: b\r\n\r\n"

def forwardedSections : Sections forwarded where
  requestLine := ascii "GET / HTTP/1.0"
  lines := [⟨ascii "X-Host", ascii " a", by decide +kernel, by decide +kernel⟩,
    ⟨ascii "Host", ascii " b", by decide +kernel, by decide +kernel⟩]
  body := []
  text := by decide +kernel
  lineEnd := by
    have shape : forwarded = ascii "GET / HTTP/1.0" ++ cr :: lf ::
      ascii "X-Host: a\r\nHost: b\r\n\r\n" := by decide +kernel
    rw [shape]
    exact firstAt_crlf_iff.mpr (by decide)
  fits := by decide

/-- The host of another header field. -/
theorem host_of_another_header : ¬ forwardedSections.HostIsHeader := by
  have parsed : (parseRequest forwarded).toOption.map (fun request => request.host.bytes) =
      some (ascii "a") := by decide +kernel
  obtain ⟨request, accepted, taken⟩ := Option.map_eq_some_iff.mp parsed
  rintro (⟨why, rejected⟩ |
    ⟨request', before, header, accepted', ⟨⟨after, lines⟩, host, _⟩, _, bytes⟩)
  · rw [rejected] at accepted
    cases accepted
  · rw [accepted'] at accepted
    cases accepted
    have member : header ∈ forwardedSections.lines := by
      rw [lines]
      exact List.mem_append_right _ List.mem_cons_self
    obtain rfl | other := List.mem_cons.mp member
    · exact absurd host (by decide)
    · obtain rfl := List.mem_singleton.mp other
      exact absurd (taken.symm.trans bytes) (by decide)

end OperationSystems.Proxy
