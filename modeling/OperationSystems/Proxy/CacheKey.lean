import OperationSystems.Proxy.Parse
import Mathlib.Data.List.Chain

/-!
# Which requests share a cache key

The key is `"%s %s"` of host and uri cut to 511 bytes. A uri has no space, so the
whole text determines both; the cut does not. A request is therefore told apart
from every other one exactly when its text leaves the last byte of `key` unused.
-/

namespace OperationSystems.Proxy

open CStrings

/-- No CR is followed by an LF. -/
def NoCrlf (l : List UInt8) : Prop := l.IsChain fun a b => ¬ (a = cr ∧ b = lf)

instance (l : List UInt8) : Decidable (NoCrlf l) := inferInstanceAs (Decidable (List.IsChain _ _))

/-- Where a CRLF lies. -/
theorem crlf_prefix_drop {l : List UInt8} {j : Nat} :
    ascii "\r\n" <+: l.drop j ↔ ∃ below : j + 1 < l.length, l[j] = cr ∧ l[j + 1] = lf := by
  constructor
  · rintro ⟨rest, text⟩
    have size := congrArg List.length text
    rw [List.length_append, length_crlf, List.length_drop] at size
    have below : j + 1 < l.length := by omega
    have first : (l.drop j)[0]? = some cr := by rw [← text]; rfl
    have second : (l.drop j)[1]? = some lf := by rw [← text]; rfl
    refine ⟨below, ?_, ?_⟩
    · rw [List.getElem?_drop, List.getElem?_eq_getElem (by omega)] at first
      exact Option.some.inj first
    · rw [List.getElem?_drop, List.getElem?_eq_getElem below] at second
      exact Option.some.inj second
  · rintro ⟨below, first, second⟩
    refine ⟨l.drop (j + 2), ?_⟩
    rw [List.drop_eq_getElem_cons (by omega : j < l.length), List.drop_eq_getElem_cons below,
      first, second]
    rfl

/-- The first CRLF ends a line that has none inside. -/
theorem firstAt_crlf_iff {line rest : List UInt8} :
    FirstAt (ascii "\r\n") (line ++ cr :: lf :: rest) line.length ↔ NoCrlf line := by
  rw [NoCrlf, List.isChain_iff_getElem]
  constructor
  · rintro ⟨_, before⟩ i below ⟨first, second⟩
    refine before i (by omega) (crlf_prefix_drop.mpr ⟨by simp; omega, ?_, ?_⟩)
    · rw [List.getElem_append_left (by omega)]
      exact first
    · rw [List.getElem_append_left below]
      exact second
  · refine fun chain => ⟨by rw [List.drop_left]; exact ⟨rest, rfl⟩, fun j below found => ?_⟩
    obtain ⟨_, first, second⟩ := crlf_prefix_drop.mp found
    rw [List.getElem_append_left below] at first
    by_cases inside : j + 1 < line.length
    · rw [List.getElem_append_left inside] at second
      exact chain j inside ⟨first, second⟩
    · have last : j + 1 = line.length := by omega
      simp [last, cr, lf] at second

/-- What the parser guarantees about an accepted request. -/
structure Request.WellFormed (request : Request) : Prop where
  hostShort : request.host.bytes.length < hostSize
  hostLine : ∀ c ∈ request.host.bytes, c ≠ cr ∧ c ≠ lf
  hostStart : ∀ c ∈ request.host.bytes.head?, c ≠ space ∧ c ≠ tab
  uriNoSpace : space ∉ request.uri.bytes
  uriLine : NoCrlf request.uri.bytes
  uriRelative : ¬ (ascii "http://").isPrefixOf request.uri.bytes = true

/-- The uri is the end of the target, or `/`. -/
theorem uriOf_suffix (target : List UInt8) : uriOf target <:+ target ∨ uriOf target = [slash] := by
  unfold uriOf
  split_ifs
  · exact .inr rfl
  · exact .inl ((List.dropWhile_suffix _).trans (List.drop_suffix _ _))
  · exact .inl (List.suffix_refl _)

/-- The uri never begins with a scheme. -/
theorem uriOf_relative (target : List UInt8) :
    ¬ (ascii "http://").isPrefixOf (uriOf target) = true := by
  unfold uriOf
  split_ifs with absolute bare
  · decide
  · intro again
    obtain ⟨c, rest, text⟩ := List.exists_cons_of_ne_nil bare
    have stops := not_of_mem_head?_dropWhile (Option.mem_def.mpr (congrArg List.head? text))
    have head : c = slash := by simpa using stops
    rw [text, head, List.isPrefixOf_iff_prefix] at again
    obtain ⟨_, equal⟩ := again
    exact absurd (List.cons.inj equal).1 (by decide)
  · exact absolute

/-- An accepted request is well formed. -/
theorem Reading.wellFormed {buf : List UInt8} (reading : Reading buf) :
    reading.request.WellFormed := by
  have line : NoCrlf (ascii "GET" ++ space :: (reading.line.target ++ space ::
      reading.line.version)) := by
    apply (@firstAt_crlf_iff _ reading.line.headers).mp
    convert reading.line.lineEnd using 1
    · simpa using reading.line.text.symm
    · simp [length_get]
      omega
  have target : NoCrlf reading.line.target := by
    refine List.IsChain.infix line ⟨ascii "GET" ++ [space], space :: reading.line.version, ?_⟩
    simp
  have part : ∀ c ∈ reading.request.host.bytes, c ∈ reading.value := fun c inside =>
    (List.takeWhile_prefix _).subset (List.mem_of_mem_take inside)
  have uri := uriOf_suffix reading.line.target
  refine ⟨?_, fun c inside => reading.valueLine c (part c inside), fun c head => ?_, ?_, ?_,
    uriOf_relative _⟩
  · have short := List.length_take_le (hostSize - 1) (reading.value.takeWhile (· != 0))
    exact lt_of_le_of_lt short (by decide)
  · apply reading.nonblank c
    obtain ⟨rest, text⟩ := List.head?_eq_some_iff.mp head
    obtain ⟨more, whole⟩ := (List.take_prefix (hostSize - 1)
      (reading.value.takeWhile (· != 0))).trans (List.takeWhile_prefix _)
    rw [← whole]
    change (reading.request.host.bytes ++ more).head? = some c
    rw [text]
    rfl
  · intro inside
    rcases uri with suffix | root
    · exact reading.line.noSpace (suffix.subset inside)
    · have bytes : reading.request.uri.bytes = [slash] := root
      rw [bytes] at inside
      exact absurd inside (by decide)
  · rcases uri with suffix | root
    · exact List.IsChain.suffix target suffix
    · have bytes : reading.request.uri.bytes = [slash] := root
      rw [bytes]
      decide

/-- What is accepted is well formed. -/
theorem Accepted.wellFormed {answers : List RecvAnswer} {request : Request}
    (accepted : Accepted answers request) : request.WellFormed := by
  obtain ⟨buf, _, parsed⟩ := accepted
  obtain ⟨reading, rfl⟩ := exists_reading parsed
  exact reading.wellFormed

/-! ## Well-formed requests are accepted -/

/-- The text for the origin ends with a blank line. -/
theorem Request.exists_blank (request : Request) :
    ∃ j, FirstAt (ascii "\r\n\r\n") request.originText j := by
  have last : ascii "\r\nConnection: close\r\n\r\n" =
      ascii "\r\nConnection: close" ++ (ascii "\r\n\r\n" ++ []) := by decide
  rw [originText, last, ← List.append_assoc]
  exact exists_firstAt

namespace Request.WellFormed

variable {request : Request} (wellFormed : request.WellFormed)

include wellFormed

/-- The uri of a request is its own uri. -/
theorem uriOf_uri : uriOf request.uri.bytes = request.uri.bytes := by
  rw [uriOf, if_neg wellFormed.uriRelative]

/-- The host of a request fits into its buffer. -/
theorem host_eq : (request.host.bytes.takeWhile (· != 0)).take (hostSize - 1) =
    request.host.bytes := by
  have clean : request.host.bytes.takeWhile (· != 0) = request.host.bytes := by
    refine List.takeWhile_eq_self_iff.mpr fun c inside => ?_
    have other : c ≠ 0 := fun same => request.host.noNul (same ▸ inside)
    simpa using other
  rw [clean]
  exact List.take_of_length_le (Nat.le_sub_one_of_lt wellFormed.hostShort)

/-- The request line for the origin has no CRLF in it. -/
theorem noCrlf_requestLine : NoCrlf (ascii "GET" ++ space :: (request.uri.bytes ++ space ::
    ascii "HTTP/1.0")) := by
  have middle : NoCrlf (request.uri.bytes ++ space :: ascii "HTTP/1.0") :=
    List.isChain_append.mpr ⟨wellFormed.uriLine, by decide, fun _ _ c head => by
      obtain rfl : c = space := (Option.some.inj head).symm
      exact fun pair => absurd pair.2 (by decide)⟩
  exact List.isChain_append.mpr ⟨by decide, List.isChain_cons.mpr
    ⟨fun c _ pair => absurd pair.1 (by decide), middle⟩, fun _ _ c head => by
      obtain rfl : c = space := (Option.some.inj head).symm
      exact fun pair => absurd pair.2 (by decide)⟩

/-- The text for the origin is itself a request that reads as the same host and
uri. -/
theorem exists_reading_originText :
    ∃ reading : Reading request.originText, reading.request = request := by
  have eight : (ascii "HTTP/1.0").length = 8 := by decide
  have shape : request.originText = (ascii "GET" ++ space :: (request.uri.bytes ++ space ::
      ascii "HTTP/1.0")) ++ cr :: lf :: (ascii "Host:" ++ ([space] ++ (request.host.bytes ++
        ascii "\r\nConnection: close\r\n\r\n"))) := by
    have get : ascii "GET " = ascii "GET" ++ [space] := by decide
    have version : ascii " HTTP/1.0\r\nHost: " =
        space :: (ascii "HTTP/1.0" ++ cr :: lf :: (ascii "Host:" ++ [space])) := by decide
    rw [originText, get, version]
    simp
  let line : LineReading request.originText :=
    { target := request.uri.bytes
      version := ascii "HTTP/1.0"
      headers := ascii "Host:" ++ ([space] ++ (request.host.bytes ++
        ascii "\r\nConnection: close\r\n\r\n"))
      text := by rw [shape]; simp
      lineEnd := by
        have size : 5 + request.uri.bytes.length + (ascii "HTTP/1.0").length = (ascii "GET" ++
            space :: (request.uri.bytes ++ space :: ascii "HTTP/1.0")).length := by
          simp [length_get, eight]
          omega
        rw [shape, size]
        exact firstAt_crlf_iff.mpr wellFormed.noCrlf_requestLine
      noSpace := wellFormed.uriNoSpace
      noNul := request.uri.noNul }
  let reading : Reading request.originText :=
    { line := line
      front := []
      blanks := [space]
      value := request.host.bytes
      after := ascii "\r\nConnection: close\r\n\r\n"
      text := rfl
      hostFirst := ⟨⟨_, rfl⟩, fun j less => absurd less (Nat.not_lt_zero j)⟩
      blank := fun c inside => .inl (List.mem_singleton.mp inside)
      nonblank := wellFormed.hostStart
      valueLine := wellFormed.hostLine
      valueEnd := fun c head => .inl (Option.some.inj head).symm
      room := fun none => absurd none (by decide) }
  refine ⟨reading, ?_⟩
  have host : reading.request.host = request.host := CString.ext_bytes wellFormed.host_eq
  have uri : reading.request.uri = request.uri := CString.ext_bytes wellFormed.uriOf_uri
  cases request
  exact congrArg₂ Request.mk host uri

/-- A client that sends the text for the origin in one block is accepted with the
same host and uri. -/
theorem accepted (fits : request.originText.length ≤ bufSize) :
    Accepted [.bytes request.originText] request := by
  obtain ⟨reading, same⟩ := wellFormed.exists_reading_originText
  have parsed := reading.parseRequest
  rw [same] at parsed
  refine ⟨request.originText, ?_, parsed⟩
  have ends : memmemSimple request.originText (ascii "\r\n\r\n") ≠ none := by
    obtain ⟨i, first⟩ := request.exists_blank
    rw [blank_eq_some_iff.mpr first]
    exact Option.some_ne_none i
  have positive : 0 < request.originText.length := by
    have four : (ascii "GET ").length = 4 := by decide
    simp only [originText, List.length_append, four]
    omega
  simp [receiveAll, receive, ends, positive, fits]

end Request.WellFormed

/-! ## Keys -/

/-- A text is determined by what is in front of and behind its last separator. -/
theorem eq_of_append_cons_eq {front back front' back' : List UInt8} {c : UInt8}
    (last : c ∉ back) (last' : c ∉ back') (same : front ++ c :: back = front' ++ c :: back') :
    front = front' ∧ back = back' := by
  rcases List.append_eq_append_iff.mp same with ⟨more, left, right⟩ | ⟨more, left, right⟩
  · cases more with
    | nil => exact ⟨by simpa using left.symm, (List.cons.inj right).2⟩
    | cons d more => exact absurd (by rw [(List.cons.inj right).2]; simp) last
  · cases more with
    | nil => exact ⟨by simpa using left, (List.cons.inj right).2.symm⟩
    | cons d more => exact absurd (by rw [(List.cons.inj right).2]; simp) last'

namespace Request

theorem bytes_key (request : Request) :
    request.key.bytes = (request.host.bytes ++ space :: request.uri.bytes).take 511 := rfl

/-- A key with room behind it has its whole text in it. -/
theorem eq_of_key_eq {request other : Request} (wellFormed : request.WellFormed)
    (also : other.WellFormed)
    (short : request.host.bytes.length + 1 + request.uri.bytes.length ≤ 510)
    (same : other.key = request.key) : other = request := by
  have cut := congrArg CString.bytes same
  rw [bytes_key, bytes_key] at cut
  have whole : (request.host.bytes ++ space :: request.uri.bytes).take 511 =
      request.host.bytes ++ space :: request.uri.bytes :=
    List.take_of_length_le (by simp; omega)
  have size := congrArg List.length cut
  rw [whole, List.length_take] at size
  have room : (other.host.bytes ++ space :: other.uri.bytes).length ≤ 511 := by
    simp only [List.length_append, List.length_cons] at size ⊢
    omega
  rw [whole, List.take_of_length_le room] at cut
  obtain ⟨host, uri⟩ := eq_of_append_cons_eq also.uriNoSpace wellFormed.uriNoSpace cut
  cases request
  cases other
  exact congrArg₂ Request.mk (CString.ext_bytes host) (CString.ext_bytes uri)

/-- The request with the same host whose uri is the visible part of this one's and
one more byte. -/
def extend (request : Request) (c : UInt8) (noNul : c ≠ 0) : Request where
  host := request.host
  uri := ⟨request.uri.bytes.take (510 - request.host.bytes.length) ++ [c], by
    intro member
    rcases List.mem_append.mp member with inside | last
    · exact request.uri.noNul (List.mem_of_mem_take inside)
    · exact noNul (List.mem_singleton.mp last).symm⟩

/-- The part of a key that is the host, the space and the uri as far as it fits. -/
theorem bytes_key_eq {request : Request} (wellFormed : request.WellFormed) :
    request.key.bytes = request.host.bytes ++ space ::
      request.uri.bytes.take (510 - request.host.bytes.length) := by
  have short := wellFormed.hostShort
  unfold hostSize at short
  have split : 511 = request.host.bytes.length + ((510 - request.host.bytes.length) + 1) := by
    omega
  rw [bytes_key, split, List.take_length_add_append, List.take_succ_cons]

namespace WellFormed

variable {request : Request} (wellFormed : request.WellFormed) {c : UInt8} (noNul : c ≠ 0)
  (plain : c ≠ space ∧ c ≠ lf)
  (long : 510 < request.host.bytes.length + 1 + request.uri.bytes.length)

include wellFormed plain long

/-- The request with one more byte in its uri is well formed. -/
theorem extend : (request.extend c noNul).WellFormed where
  hostShort := wellFormed.hostShort
  hostLine := wellFormed.hostLine
  hostStart := wellFormed.hostStart
  uriNoSpace := by
    intro member
    rcases List.mem_append.mp member with inside | last
    · exact wellFormed.uriNoSpace (List.mem_of_mem_take inside)
    · exact plain.1 (List.mem_singleton.mp last).symm
  uriLine := by
    refine List.isChain_append.mpr
      ⟨List.IsChain.take wellFormed.uriLine _, List.isChain_singleton c,
      fun _ _ d head pair => plain.2 ?_⟩
    exact (Option.some.inj head).trans pair.2
  uriRelative := by
    intro absolute
    have short := wellFormed.hostShort
    unfold hostSize at short
    have seven : (ascii "http://").length = 7 := by decide
    have inside : ascii "http://" <+: request.uri.bytes.take (510 - request.host.bytes.length) := by
      refine List.prefix_of_prefix_length_le (List.isPrefixOf_iff_prefix.mp absolute)
        (List.prefix_append _ _) ?_
      rw [seven, List.length_take]
      omega
    exact wellFormed.uriRelative
      (List.isPrefixOf_iff_prefix.mpr (inside.trans (List.take_prefix _ _)))

/-- A key that is full does not change with it. -/
theorem key_extend : (request.extend c noNul).key = request.key := by
  apply CString.ext_bytes
  rw [bytes_key_eq (wellFormed.extend noNul plain long), bytes_key_eq wellFormed]
  have short : (request.uri.bytes.take (510 - request.host.bytes.length)).length =
      510 - request.host.bytes.length := List.length_take_of_le (by omega)
  change request.host.bytes ++ space :: (request.uri.bytes.take
    (510 - request.host.bytes.length) ++ [c]).take (510 - request.host.bytes.length) = _
  rw [List.take_append_of_le_length short.ge, List.take_take, Nat.min_self]

/-- The extended request is short enough to be accepted. -/
theorem accepted_extend :
    Accepted [.bytes (request.extend c noNul).originText] (request.extend c noNul) := by
  apply (wellFormed.extend noNul plain long).accepted
  have short := wellFormed.hostShort
  have uri := List.length_take_le (510 - request.host.bytes.length) request.uri.bytes
  have get : (ascii "GET ").length = 4 := by decide
  have version : (ascii " HTTP/1.0\r\nHost: ").length = 17 := by decide
  have last : (ascii "\r\nConnection: close\r\n\r\n").length = 23 := by decide
  unfold hostSize at short
  simp only [originText, Request.extend, List.length_append, List.length_singleton, get, version,
    last, bufSize]
  omega

end WellFormed
end Request

/-- **A request is told apart by its key exactly when the key is not cut.** For
an accepted request, every accepted request with an equal key has the same host,
the same uri and the same origin request if and only if host, space and uri leave
the last byte of `key` unused. -/
theorem key_separates_iff {answers : List RecvAnswer} {request : Request}
    (accepted : Accepted answers request) :
    (∀ answers' other, Accepted answers' other → other.key = request.key →
      other.host = request.host ∧ other.uri = request.uri ∧
        other.originText = request.originText) ↔
      request.host.bytes.length + 1 + request.uri.bytes.length ≤ 510 := by
  have wellFormed := accepted.wellFormed
  constructor
  · intro separates
    by_contra more
    have long := not_le.mp more
    have same : ∀ c (noNul : c ≠ 0), c ≠ space ∧ c ≠ lf →
        request.uri.bytes.take (510 - request.host.bytes.length) ++ [c] = request.uri.bytes := by
      intro c noNul plain
      have equal := (separates _ _ (wellFormed.accepted_extend noNul plain long)
        (wellFormed.key_extend noNul plain long)).2.1
      exact congrArg CString.bytes equal
    have one := same 97 (by decide) (by decide)
    have two := same 98 (by decide) (by decide)
    exact absurd (List.append_cancel_left (one.trans two.symm)) (by decide)
  · intro short answers' other also same
    obtain rfl := Request.eq_of_key_eq wellFormed also.wellFormed short same
    exact ⟨rfl, rfl, rfl⟩

/-- A short request. -/
def shortRequest : Request := ⟨⟨ascii "a.org", by decide⟩, ⟨ascii "/b", by decide⟩⟩

/-- The theorem at a short request and at a client that names the same answer in
another way. -/
theorem key_separates_iff_short :
    ∃ other, Accepted [.bytes (ascii "GET http://a.org/b HTTP/1.1\r\nHost:  a.org\r\n\r\n")] other ∧
      other.key = shortRequest.key ∧ other.host = shortRequest.host ∧
      other.uri = shortRequest.uri := by
  have wellFormed : shortRequest.WellFormed := by constructor <;> decide +kernel
  have keys : ((parseRequest (ascii "GET http://a.org/b HTTP/1.1\r\nHost:  a.org\r\n\r\n")).map
      Request.key) = .ok shortRequest.key := by decide +kernel
  cases parsed : parseRequest (ascii "GET http://a.org/b HTTP/1.1\r\nHost:  a.org\r\n\r\n") with
  | error stop =>
      rw [parsed] at keys
      cases keys
  | ok other =>
      rw [parsed] at keys
      have same : other.key = shortRequest.key := Except.ok.inj keys
      have also : Accepted
          [.bytes (ascii "GET http://a.org/b HTTP/1.1\r\nHost:  a.org\r\n\r\n")] other :=
        ⟨_, by decide +kernel, parsed⟩
      obtain ⟨host, uri, _⟩ := (key_separates_iff (wellFormed.accepted (by decide +kernel))).mpr
        (by decide) _ other also same
      exact ⟨other, also, same, host, uri⟩

/-- A request for a long uri, up to its last byte. -/
def longRequest (last : UInt8) (noNul : last ≠ 0) : Request where
  host := ⟨ascii "a.org", by decide⟩
  uri := ⟨slash :: (List.replicate 520 97 ++ [last]), by
    rw [List.mem_cons, List.mem_append, List.mem_singleton]
    rintro (first | middle | final)
    · exact absurd first (by decide)
    · exact absurd (List.eq_of_mem_replicate middle) (by decide)
    · exact noNul final.symm⟩

/-- Two requests for different long uris that are accepted with one key. -/
theorem key_collision :
    Accepted [.bytes (longRequest 49 (by decide)).originText] (longRequest 49 (by decide)) ∧
      Accepted [.bytes (longRequest 50 (by decide)).originText] (longRequest 50 (by decide)) ∧
      (longRequest 49 (by decide)).key = (longRequest 50 (by decide)).key ∧
      (longRequest 49 (by decide)).uri ≠ (longRequest 50 (by decide)).uri := by
  have one : (longRequest 49 (by decide)).WellFormed := by constructor <;> decide +kernel
  have two : (longRequest 50 (by decide)).WellFormed := by constructor <;> decide +kernel
  exact ⟨one.accepted (by decide +kernel), two.accepted (by decide +kernel), by decide +kernel,
    by decide +kernel⟩

end OperationSystems.Proxy
