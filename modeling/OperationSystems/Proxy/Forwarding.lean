import OperationSystems.Proxy.Segments

/-!
# What the origin is sent

The request for the origin is printed around the host and the uri that were cut out of the
client's request. A host ends at the first CR or LF, but a target only at a space or at the
first CRLF, so a single CR or LF in it ends up in what is sent. What is sent is itself a
request, and it is read as the one it was printed from. The uri of an absolute target
starts at its first slash, also where this is inside the query.
-/

namespace OperationSystems.Proxy

open CStrings

/-! ## Texts made of lines -/

/-- Each line with a CRLF behind it. -/
def printLines (lines : List (List UInt8)) : List UInt8 :=
  lines.flatMap fun line => line ++ [cr, lf]

/-- Where the lines end in their text, which starts at `start`. -/
def lineEnds : ℕ → List (List UInt8) → List ℕ
  | _, [] => []
  | start, line :: lines => (start + line.length) :: lineEnds (start + line.length + 2) lines

/-- Neither CR nor LF. -/
def Plain (text : List UInt8) : Prop := ∀ c ∈ text, c ≠ cr ∧ c ≠ lf

theorem printLines_cons (line : List UInt8) (lines : List (List UInt8)) :
    printLines (line :: lines) = line ++ cr :: lf :: printLines lines := by
  simp [printLines]

theorem le_of_mem_lineEnds {lines : List (List UInt8)} {start e : ℕ}
    (member : e ∈ lineEnds start lines) : start ≤ e := by
  induction lines generalizing start with
  | nil => cases member
  | cons line lines ih =>
      obtain rfl | later := List.mem_cons.mp member
      · exact Nat.le_add_right _ _
      · have := ih later
        omega

/-- A byte of a text made of lines is in the first line, one of the two that end it, or
further behind. -/
theorem getElem?_printLines {line : List UInt8} {lines : List (List UInt8)} {i : ℕ} {c : UInt8}
    (here : (printLines (line :: lines))[i]? = some c) :
    c ∈ line ∧ i < line.length ∨ i = line.length ∨ i = line.length + 1 ∨
      ∃ k, i = line.length + 2 + k ∧ (printLines lines)[k]? = some c := by
  rw [printLines_cons] at here
  by_cases inside : i < line.length
  · rw [List.getElem?_append_left inside] at here
    exact .inl ⟨List.mem_of_getElem? here, inside⟩
  · right
    obtain ⟨k, rfl⟩ := Nat.exists_eq_add_of_le (not_lt.mp inside)
    match k with
    | 0 => exact .inl rfl
    | 1 => exact .inr (.inl rfl)
    | k + 2 =>
        refine .inr (.inr ⟨k, by omega, ?_⟩)
        rw [List.getElem?_append_right (by omega), Nat.add_sub_cancel_left] at here
        exact here

/-- The lines are plain exactly when every CR and LF of their text ends a line. -/
theorem plain_lines_iff (start : ℕ) {lines : List (List UInt8)} :
    (∀ line ∈ lines, Plain line) ↔ ∀ i c, (printLines lines)[i]? = some c → c = cr ∨ c = lf →
      ∃ e ∈ lineEnds start lines, start + i = e ∨ start + i = e + 1 := by
  induction lines generalizing start with
  | nil =>
      apply iff_of_true
      · exact List.forall_mem_nil _
      · intro i c here
        cases here
  | cons line lines ih =>
      constructor
      · intro plain i c here breaks
        obtain ⟨member, _⟩ | rfl | rfl | ⟨k, rfl, behind⟩ := getElem?_printLines here
        · have clean := plain line List.mem_cons_self c member
          exact absurd breaks (not_or.mpr clean)
        · exact ⟨_, List.mem_cons_self, .inl rfl⟩
        · exact ⟨_, List.mem_cons_self, .inr rfl⟩
        · have later := (ih (start + line.length + 2)).mp
            (fun other member => plain other (List.mem_cons_of_mem _ member)) k c behind breaks
          obtain ⟨e, member, place⟩ := later
          exact ⟨e, List.mem_cons_of_mem _ member, by omega⟩
      · intro only other member
        obtain rfl | later := List.mem_cons.mp member
        · intro c inside
          by_contra breaks
          obtain ⟨i, below, same⟩ := List.mem_iff_getElem.mp inside
          have here : (printLines (other :: lines))[i]? = some c := by
            rw [printLines_cons, List.getElem?_append_left below, List.getElem?_eq_getElem below,
              same]
          obtain ⟨e, ends, place⟩ := only i c here (by tauto)
          obtain rfl | further := List.mem_cons.mp ends
          · omega
          · have := le_of_mem_lineEnds further
            omega
        · refine (ih (start + line.length + 2)).mpr ?_ other later
          intro i c here breaks
          have shifted : (printLines (line :: lines))[line.length + (i + 2)]? = some c := by
            rw [printLines_cons, List.getElem?_append_right (Nat.le_add_right _ _),
              Nat.add_sub_cancel_left]
            exact here
          obtain ⟨e, ends, place⟩ := only _ c shifted breaks
          obtain rfl | further := List.mem_cons.mp ends
          · omega
          · exact ⟨e, further, by omega⟩

/-- Where no line has a CRLF inside, every CRLF of the text ends a line. -/
theorem mem_lineEnds_of_crlf (start : ℕ) {lines : List (List UInt8)} {j : ℕ}
    (clean : ∀ line ∈ lines, NoCrlf line) (found : ascii "\r\n" <+: (printLines lines).drop j) :
    start + j ∈ lineEnds start lines := by
  induction lines generalizing start j with
  | nil =>
      obtain ⟨below, _⟩ := crlf_prefix_drop.mp found
      cases below
  | cons line lines ih =>
      have first : FirstAt (ascii "\r\n") (line ++ cr :: lf :: printLines lines) line.length :=
        firstAt_crlf_iff.mpr (clean line List.mem_cons_self)
      rw [printLines_cons] at found
      by_cases less : j < line.length
      · exact absurd found (first.before j less)
      obtain ⟨k, rfl⟩ := Nat.exists_eq_add_of_le (not_lt.mp less)
      match k with
      | 0 => exact List.mem_cons_self
      | 1 =>
          obtain ⟨_, second, _⟩ := crlf_prefix_drop.mp found
          simp [cr, lf] at second
      | k + 2 =>
          have behind : ascii "\r\n" <+: (printLines lines).drop k := by
            rw [← List.drop_drop, List.drop_left] at found
            exact found
          have later := ih (start + line.length + 2)
            (fun other member => clean other (List.mem_cons_of_mem _ member)) behind
          apply List.mem_cons_of_mem
          convert later using 1
          omega

/-! ## The lines of the request for the origin -/

namespace Request

variable (request : Request)

/-- The lines that the format string writes; the last one is the blank line. -/
def originLines : List (List UInt8) :=
  [ascii "GET " ++ request.uri.bytes ++ ascii " HTTP/1.0", ascii "Host: " ++ request.host.bytes,
    ascii "Connection: close", []]

/-- The forwarded text is its four lines. -/
theorem originText_eq : request.originText = printLines request.originLines := by
  have version : ascii " HTTP/1.0\r\nHost: " = ascii " HTTP/1.0" ++ cr :: lf :: ascii "Host: " := by
    decide
  have connection : ascii "\r\nConnection: close\r\n\r\n" =
      cr :: lf :: (ascii "Connection: close" ++ [cr, lf, cr, lf]) := by
    decide
  rw [originText, version, connection]
  simp [printLines, originLines]

/-- How long the forwarded text is. -/
theorem length_originText : request.originText.length =
    request.uri.bytes.length + request.host.bytes.length + 44 := by
  have get : (ascii "GET ").length = 4 := by decide
  have version : (ascii " HTTP/1.0\r\nHost: ").length = 17 := by decide
  have connection : (ascii "\r\nConnection: close\r\n\r\n").length = 23 := by decide
  simp only [originText, List.length_append, get, version, connection]
  omega

theorem lineEnds_originLines : lineEnds 0 request.originLines =
    [request.uri.bytes.length + 13, request.uri.bytes.length + request.host.bytes.length + 21,
      request.uri.bytes.length + request.host.bytes.length + 40,
      request.uri.bytes.length + request.host.bytes.length + 42] := by
  have get : (ascii "GET ").length = 4 := by decide
  have version : (ascii " HTTP/1.0").length = 9 := by decide
  have host : (ascii "Host: ").length = 6 := by decide
  have connection : (ascii "Connection: close").length = 17 := by decide
  simp only [originLines, lineEnds, List.length_append, get, version, host, connection,
    List.length_nil, List.cons.injEq, and_true]
  omega

variable {request} {text : List UInt8}

/-- What is forwarded is the whole text, and it fits into `req`. -/
theorem eq_of_originRequest (forwarded : request.originRequest = some text) :
    request.originText = text ∧ text.length < reqSize := by
  unfold originRequest at forwarded
  split_ifs at forwarded with long
  obtain rfl := Option.some.inj forwarded
  exact ⟨rfl, not_le.mp long⟩

end Request

/-! ## Single CRs and LFs in the target -/

/-- Every CR and every LF of what is sent is part of one of the four CRLFs of the format
string. -/
def Unsplit (request : Request) (text : List UInt8) : Prop :=
  ∀ i c, text[i]? = some c → c = cr ∨ c = lf →
    ∃ e ∈ lineEnds 0 request.originLines, i = e ∨ i = e + 1

/-- There is no CR and no LF in a target, in an absolute one from its first slash behind
`http://` on. -/
def PlainTarget (target : List UInt8) : Prop :=
  if (ascii "http://").isPrefixOf target then Plain ((target.drop 7).dropWhile (· != slash))
  else Plain target

/-- The uri is plain where the target is. -/
theorem plain_uriOf {target : List UInt8} : Plain (uriOf target) ↔ PlainTarget target := by
  unfold uriOf PlainTarget
  split_ifs with absolute bare
  · rw [bare]
    apply iff_of_true
    · unfold Plain
      decide +kernel
    · exact List.forall_mem_nil _
  · exact Iff.rfl
  · exact Iff.rfl

theorem Plain.append {front back : List UInt8} (plain : Plain front) (also : Plain back) :
    Plain (front ++ back) := fun c member =>
  (List.mem_append.mp member).elim (plain c) (also c)

/-- A plain text has no CRLF. -/
theorem Plain.noCrlf {text : List UInt8} (plain : Plain text) : NoCrlf text := by
  apply List.isChain_iff_getElem.mpr
  intro i below pair
  exact (plain _ (List.getElem_mem below)).2 pair.2

/-- The target is what stands between the first two spaces. -/
theorem LineReading.takeWhile_target {buf : List UInt8} (line : LineReading buf) :
    (buf.drop 4).takeWhile (· != space) = line.target := by
  have behind : buf.drop 4 =
      line.target ++ space :: (line.version ++ cr :: lf :: line.headers) := by
    apply drop_of_eq_append (ascii "GET" ++ [space])
    · exact line.text.trans (by simp)
    · rfl
  rw [behind, List.takeWhile_append_of_pos]
  · simp
  · intro c member
    have other : c ≠ space := fun same => line.noSpace (same ▸ member)
    simpa using other

/-- The uri of an accepted request, by its target. -/
theorem LineReading.bytes_uri {buf : List UInt8} {request : Request} (line : LineReading buf)
    (parsed : parseRequest buf = .ok request) : request.uri.bytes = uriOf line.target := by
  obtain ⟨reading, rfl⟩ := exists_reading parsed
  rw [← line.takeWhile_target, reading.line.takeWhile_target]
  rfl

/-- **When the request for the origin is not split.** -/
theorem unsplit_iff {buf text : List UInt8} {request : Request}
    (parsed : parseRequest buf = .ok request) (line : LineReading buf)
    (forwarded : request.originRequest = some text) :
    Unsplit request text ↔ PlainTarget line.target := by
  obtain ⟨rfl, _⟩ := Request.eq_of_originRequest forwarded
  obtain ⟨reading, rfl⟩ := exists_reading parsed
  have host : Plain reading.request.host.bytes := reading.wellFormed.hostLine
  have lines : Unsplit reading.request reading.request.originText ↔
      ∀ line ∈ reading.request.originLines, Plain line := by
    rw [plain_lines_iff 0, ← Request.originText_eq]
    simp only [Unsplit, Nat.zero_add]
  rw [lines, ← plain_uriOf, ← line.bytes_uri parsed]
  constructor
  · intro plain c member
    apply plain _ List.mem_cons_self
    exact List.mem_append_left _ (List.mem_append_right _ member)
  · intro uri
    have get : Plain (ascii "GET ") := by unfold Plain; decide +kernel
    have version : Plain (ascii " HTTP/1.0") := by unfold Plain; decide +kernel
    have field : Plain (ascii "Host: ") := by unfold Plain; decide +kernel
    have connection : Plain (ascii "Connection: close") := by unfold Plain; decide +kernel
    simp only [Request.originLines, List.forall_mem_cons]
    exact ⟨(get.append uri).append version, field.append host, connection, List.forall_mem_nil _,
      List.forall_mem_nil _⟩

/-- A request with a single LF in its target. -/
def lfRequest : List UInt8 := ascii "GET /\nHost:a HTTP/1.0\r\nHost: b\r\n\r\n"

def lfLine : LineReading lfRequest where
  target := ascii "/\nHost:a"
  version := ascii "HTTP/1.0"
  headers := ascii "Host: b\r\n\r\n"
  text := by decide
  lineEnd := by
    have shape : lfRequest = ascii "GET /\nHost:a HTTP/1.0" ++ cr :: lf ::
      ascii "Host: b\r\n\r\n" := by decide
    rw [shape]
    exact firstAt_crlf_iff.mpr (by decide)
  noSpace := by decide
  noNul := by decide

/-- What the proxy takes `lfRequest` for. -/
def lfParsed : Request := ⟨⟨ascii "b", by decide⟩, ⟨ascii "/\nHost:a", by decide⟩⟩

theorem unsplit_iff_lfRequest :
    Unsplit lfParsed lfParsed.originText ↔ PlainTarget (ascii "/\nHost:a") :=
  @unsplit_iff lfRequest _ _ rfl lfLine rfl

theorem lfRequest_accepted : Accepted [.bytes lfRequest] lfParsed := by
  apply decision_eq_continues.mp
  decide +kernel

/-- The origin sees two lines where the format string writes one. -/
theorem request_split : ¬ ∀ answers request text, Accepted answers request →
    request.originRequest = some text → Unsplit request text := by
  intro unsplit
  obtain ⟨e, member, place⟩ := unsplit _ _ _ lfRequest_accepted rfl 5 lf (by decide) (.inr rfl)
  rw [Request.lineEnds_originLines] at member
  have two : ∀ e ∈ [21, 30, 49, 51], ¬ (5 = e ∨ 5 = e + 1) := by decide +kernel
  exact two e member place

/-! ## Forwarding twice -/

namespace Request.WellFormed

variable {request : Request} (wellFormed : request.WellFormed)

include wellFormed

/-- Nor has a line of the forwarded text. -/
theorem noCrlf_originLines : ∀ line ∈ request.originLines, NoCrlf line := by
  have first : NoCrlf (ascii "GET " ++ request.uri.bytes ++ ascii " HTTP/1.0") := by
    have get : ascii "GET " = ascii "GET" ++ [space] := by decide
    have version : ascii " HTTP/1.0" = space :: ascii "HTTP/1.0" := by decide
    rw [get, version]
    simpa using wellFormed.noCrlf_requestLine
  have second : Plain (ascii "Host: " ++ request.host.bytes) :=
    Plain.append (by unfold Plain; decide +kernel) wellFormed.hostLine
  simp only [originLines, List.forall_mem_cons]
  exact ⟨first, second.noCrlf, by decide, by decide, List.forall_mem_nil _⟩

/-- The blank line of what is sent is its end. -/
theorem blank_at_end {j : ℕ} (found : ascii "\r\n\r\n" <+: request.originText.drop j) :
    j + 4 = request.originText.length := by
  obtain ⟨rest, text⟩ := found
  have blank : ascii "\r\n\r\n" = ascii "\r\n" ++ ascii "\r\n" := by decide
  rw [blank, List.append_assoc] at text
  have first : ascii "\r\n" <+: request.originText.drop j := ⟨_, text⟩
  have second : ascii "\r\n" <+: request.originText.drop (j + 2) := by
    rw [← List.drop_drop, ← text, ← length_crlf, List.drop_left]
    exact List.prefix_append _ _
  rw [originText_eq] at first second
  have ends := mem_lineEnds_of_crlf 0 wellFormed.noCrlf_originLines first
  have more := mem_lineEnds_of_crlf 0 wellFormed.noCrlf_originLines second
  rw [lineEnds_originLines] at ends more
  simp only [List.mem_cons, List.not_mem_nil, or_false] at ends more
  rw [length_originText]
  omega

/-- The parser makes the same request of the forwarded text. -/
theorem parseDecision_originText : parseDecision request.originText = .continues request := by
  obtain ⟨reading, same⟩ := wellFormed.exists_reading_originText
  unfold parseDecision
  rw [reading.parseRequest, same]

/-- However what is sent is cut, the loop goes on to the end of it. -/
theorem received_originText {answers : List RecvAnswer} {text : List UInt8}
    (delivers : Delivers request.originText answers)
    (ran : receiveAll [] answers = some (.received text)) : text = request.originText := by
  obtain ⟨inside, _, j, first⟩ := delivers.received ran
  rw [List.nil_append] at inside
  obtain ⟨more, whole⟩ := inside
  have ends := wellFormed.blank_at_end (whole ▸ (first.append (by decide) more).here)
  have room := first.here.length_le
  rw [List.length_drop, length_blank] at room
  exact List.IsPrefix.eq_of_length_le ⟨more, whole⟩ (by omega)

end Request.WellFormed

/-- A client that sends `text`, however it is cut, is taken for one with this request. -/
structure Reproduces (text : List UInt8) (request : Request) : Prop where
  accepted : Accepted [.bytes text] request
  again : ∀ answers made, Delivers text answers → decision answers = some made →
    ∃ other, made = .continues other ∧ other.host = request.host ∧ other.uri = request.uri ∧
      other.key = request.key ∧ other.originRequest = request.originRequest
  decided : ∀ answers, Delivers text answers → receiveAll [] answers ≠ some (.reading text)

/-- **Forwarding twice is forwarding once.** -/
theorem forwarding_idempotent {answers : List RecvAnswer} {request : Request} {text : List UInt8}
    (accepted : Accepted answers request) (forwarded : request.originRequest = some text) :
    Reproduces text request := by
  obtain ⟨rfl, short⟩ := Request.eq_of_originRequest forwarded
  have wellFormed := accepted.wellFormed
  have fits : request.originText.length ≤ bufSize := short.le.trans (by decide)
  obtain ⟨j, blank⟩ := request.exists_blank
  have found := blank_eq_some_iff.mpr blank
  refine ⟨wellFormed.accepted fits, fun answers made delivers decided => ?_,
    fun answers delivers ran => ?_⟩
  · obtain ⟨text, _, ran, rfl, _⟩ | ⟨missing, _⟩ := delivers.decided decided
    · obtain rfl := wellFormed.received_originText delivers ran
      exact ⟨request, wellFormed.parseDecision_originText, rfl, rfl, rfl, rfl⟩
    · rw [window, List.take_of_length_le fits, found] at missing
      cases missing
  · rw [delivers.reading (by decide) ran] at found
    cases found

theorem forwarding_idempotent_lfRequest : Reproduces lfParsed.originText lfParsed :=
  forwarding_idempotent lfRequest_accepted rfl

/-! ## Absolute targets -/

abbrev question : UInt8 := 63
abbrev hash : UInt8 := 35

/-- The resource an absolute target names by what follows its authority. -/
def resourceOf (rest : List UInt8) : List UInt8 :=
  if rest = [] then [slash] else if rest.head? = some slash then rest else slash :: rest

/-- The uri of an absolute target starts at its first slash behind the authority. -/
theorem uriOf_absolute {authority rest : List UInt8} (plain : slash ∉ authority) :
    uriOf (ascii "http://" ++ (authority ++ rest)) =
      if rest.dropWhile (· != slash) = [] then [slash] else rest.dropWhile (· != slash) := by
  have seven : (ascii "http://").length = 7 := by decide
  have behind : ((ascii "http://" ++ (authority ++ rest)).drop 7).dropWhile (· != slash) =
      rest.dropWhile (· != slash) := by
    rw [← seven, List.drop_left, List.dropWhile_append_of_pos]
    intro c member
    have other : c ≠ slash := fun same => plain (same ▸ member)
    simpa using other
  have absolute : (ascii "http://").isPrefixOf (ascii "http://" ++ (authority ++ rest)) = true :=
    List.isPrefixOf_iff_prefix.mpr (List.prefix_append _ _)
  rw [uriOf, if_pos absolute, behind]
  rfl

/-- **When an absolute target keeps its resource.** -/
theorem resource_kept_iff {buf : List UInt8} {request : Request} {authority rest : List UInt8}
    (parsed : parseRequest buf = .ok request) (line : LineReading buf)
    (absolute : line.target = ascii "http://" ++ (authority ++ rest))
    (plain : ∀ c ∈ authority, c ≠ slash ∧ c ≠ question ∧ c ≠ hash)
    (starts : ∀ c ∈ rest.head?, c = slash ∨ c = question) :
    request.uri.bytes = resourceOf rest ↔ rest.head? ≠ some question := by
  rw [line.bytes_uri parsed, absolute, uriOf_absolute fun member => (plain _ member).1 rfl]
  have other : question ≠ slash := by decide
  cases rest with
  | nil => simp [resourceOf]
  | cons c rest =>
      obtain rfl | rfl := starts c rfl
      · simp [resourceOf, other.symm]
      · apply iff_of_false
        · intro same
          have size := congrArg List.length same
          have short := (List.dropWhile_suffix (· != slash) (l := question :: rest)).length_le
          have whole : (resourceOf (question :: rest)).length = rest.length + 2 := by
            simp [resourceOf, other]
          rw [whole] at size
          split_ifs at size
          · cases size
          · rw [List.length_cons] at short
            omega
        · exact not_not_intro rfl

/-- A request for an absolute target whose query holds a slash. -/
def queryRequest : List UInt8 := ascii "GET http://b?x/y HTTP/1.0\r\nHost: b\r\n\r\n"

def queryLine : LineReading queryRequest where
  target := ascii "http://b?x/y"
  version := ascii "HTTP/1.0"
  headers := ascii "Host: b\r\n\r\n"
  text := by decide
  lineEnd := by
    have shape : queryRequest = ascii "GET http://b?x/y HTTP/1.0" ++ cr :: lf ::
      ascii "Host: b\r\n\r\n" := by decide
    rw [shape]
    exact firstAt_crlf_iff.mpr (by decide)
  noSpace := by decide
  noNul := by decide

/-- What the proxy takes `queryRequest` for. -/
def queryParsed : Request := ⟨⟨ascii "b", by decide⟩, ⟨ascii "/y", by decide⟩⟩

theorem resource_kept_iff_queryRequest : queryParsed.uri.bytes = resourceOf (ascii "?x/y") ↔
    (ascii "?x/y").head? ≠ some question :=
  @resource_kept_iff queryRequest queryParsed (ascii "b") _ rfl queryLine (by decide)
    (by decide +kernel) (by decide +kernel)

/-- The end of the query is taken for the path. -/
theorem query_taken_for_path : ¬ ∀ (answers : List RecvAnswer) (buf : List UInt8)
    (request : Request) (line : LineReading buf) (authority rest : List UInt8),
    receiveAll [] answers = some (.received buf) → parseRequest buf = .ok request →
      line.target = ascii "http://" ++ (authority ++ rest) → authority ≠ [] →
      (∀ c ∈ authority, c ≠ slash ∧ c ≠ question ∧ c ≠ hash) →
      (∀ c ∈ rest.head?, c = slash ∨ c = question) → request.uri.bytes = resourceOf rest := by
  intro kept
  have same := kept [.bytes queryRequest] queryRequest queryParsed queryLine (ascii "b")
    (ascii "?x/y") rfl rfl (by decide) (by decide) (by decide +kernel) (by decide +kernel)
  exact absurd same (by decide)

end OperationSystems.Proxy
