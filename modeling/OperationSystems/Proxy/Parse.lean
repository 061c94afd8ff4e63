import OperationSystems.Proxy.Request

/-!
# What the parser accepts

`parseRequest` walks a buffer with pointers and stores NULs in it. Here its
accepting runs are described by the text of the buffer: the request line and the
headers are cut as `LineReading` and `Reading` say, and conversely a text that is
cut so is accepted with that host and that uri.
-/

namespace OperationSystems.Proxy

open CStrings

variable {α β : Type}

theorem access_eq_ok {x : Option α} {a : α} : access x = .ok a ↔ x = some a := by
  cases x <;> simp [access]

theorem require_eq_ok {why : Reject} {x : Option α} {a : α} :
    require why x = .ok a ↔ x = some a := by
  cases x <;> simp [require]

theorem bind_eq_ok {x : Except Stop α} {f : α → Except Stop β} {b : β} :
    (x >>= f) = .ok b ↔ ∃ a, x = .ok a ∧ f a = .ok b := by
  cases x with
  | error stop => simp [bind, Except.bind]
  | ok a => simp [bind, Except.bind]

theorem length_get : (ascii "GET").length = 3 := by decide

theorem length_host : (ascii "Host:").length = 5 := by decide

theorem length_crlf : (ascii "\r\n").length = 2 := by decide

theorem length_blank : (ascii "\r\n\r\n").length = 4 := by decide

/-- What stands behind a `Host:`. -/
theorem drop_host (front rest : List UInt8) :
    (front ++ (ascii "Host:" ++ rest)).drop (front.length + 5) = rest := by
  rw [← List.drop_drop, List.drop_left, ← length_host, List.drop_left]

/-- `memmem_simple` finds the first occurrence. -/
theorem memmemSimple_eq_some_iff {haystack needle : List UInt8} (positive : needle ≠ [])
    {i : Nat} : memmemSimple haystack needle = some i ↔ FirstAt needle haystack i := by
  have long : 0 < needle.length := List.length_pos_of_ne_nil positive
  have occurs : ∀ j, ((haystack.drop j).take needle.length == needle) = true ↔
      needle <+: haystack.drop j := by
    intro j
    rw [List.prefix_iff_eq_take, beq_iff_eq, eq_comm]
  have inside : ∀ j, needle <+: haystack.drop j → j + needle.length ≤ haystack.length := by
    intro j found
    have := found.length_le
    rw [List.length_drop] at this
    omega
  unfold memmemSimple
  split_ifs with short
  · refine iff_of_false (by simp) fun first => ?_
    have := inside i first.here
    omega
  · rw [List.find?_range_eq_some]
    constructor
    · rintro ⟨here, _, before⟩
      refine ⟨(occurs i).mp here, fun j less found => ?_⟩
      simpa [(occurs j).mpr found] using before j less
    · rintro ⟨here, before⟩
      have := inside i here
      refine ⟨(occurs i).mpr here, List.mem_range.mpr (by omega), fun j less => ?_⟩
      have absent : ¬ ((haystack.drop j).take needle.length == needle) = true :=
        fun found => before j less ((occurs j).mp found)
      simpa using absent

/-- Where the blank line is found. -/
theorem blank_eq_some_iff {buf : List UInt8} {i : Nat} :
    memmemSimple buf (ascii "\r\n\r\n") = some i ↔ FirstAt (ascii "\r\n\r\n") buf i :=
  memmemSimple_eq_some_iff (by decide)

/-- How the request line of an accepted buffer is cut: `GET`, the target, what
follows it on the line, and the headers behind the first CRLF. -/
structure LineReading (buf : List UInt8) where
  target : List UInt8
  version : List UInt8
  headers : List UInt8
  text : buf = ascii "GET" ++ space :: (target ++ space :: (version ++ cr :: lf :: headers))
  lineEnd : FirstAt (ascii "\r\n") buf (5 + target.length + version.length)
  noSpace : space ∉ target
  noNul : 0 ∉ target

namespace LineReading

variable {buf : List UInt8} (reading : LineReading buf)

/-- The buffer after the three NULs were stored. -/
def stored : RequestLine where
  buf := ascii "GET" ++ 0 :: (reading.target ++ 0 :: (reading.version ++ 0 :: lf ::
    reading.headers))
  path := 4
  headersStart := 5 + reading.target.length + reading.version.length + 2

theorem drop_stored : reading.stored.buf.drop reading.stored.headersStart =
    reading.headers := by
  have shape : reading.stored.buf = (ascii "GET" ++ 0 :: (reading.target ++ 0 ::
      (reading.version ++ [0, lf]))) ++ reading.headers := by
    simp [LineReading.stored]
  have size : reading.stored.headersStart = (ascii "GET" ++ 0 :: (reading.target ++
      0 :: (reading.version ++ [0, lf]))).length := by
    simp [LineReading.stored, length_get]
    omega
  rw [shape, size, List.drop_left]

theorem length_stored : reading.stored.buf.length = buf.length := by
  have size := congrArg List.length reading.text
  simp only [stored, List.length_append, List.length_cons] at size ⊢
  omega

end LineReading

/-- An accepted request line is cut as a `LineReading` says. -/
theorem exists_lineReading {buf : List UInt8} {line : RequestLine}
    (parsed : splitRequestLine buf = .ok line) :
    ∃ reading : LineReading buf, reading.stored = line := by
  unfold splitRequestLine at parsed
  obtain ⟨lineEnd, found, parsed⟩ := bind_eq_ok.mp parsed
  have first := (memmemSimple_eq_some_iff (by decide)).mp (require_eq_ok.mp found)
  obtain ⟨front, headers, text, rfl⟩ := first.split (by decide)
  replace text : buf = front ++ cr :: lf :: headers := text
  obtain ⟨buf1, stored, parsed⟩ := bind_eq_ok.mp parsed
  rw [access_eq_ok, text, storeNul_inside, Option.some.injEq] at stored
  subst stored
  -- the method ends at the first space of the line
  obtain ⟨line0, loaded, parsed⟩ := bind_eq_ok.mp parsed
  obtain ⟨_, whole⟩ := loadString_eq_some_iff.mp (access_eq_ok.mp loaded)
  obtain ⟨more, inside⟩ := prefix_of_eq_append_nul line0.noNul whole
  obtain ⟨sp1, found1, parsed⟩ := bind_eq_ok.mp parsed
  obtain ⟨method, back1, split1, noSpace1, rfl⟩ := strchr_eq_some_iff.mp (require_eq_ok.mp found1)
  obtain ⟨rest, rfl⟩ : ∃ rest, front = method ++ space :: rest :=
    ⟨back1 ++ more, by rw [← inside, split1]; simp⟩
  have methodNoNul : 0 ∉ method := fun member => line0.noNul (by rw [split1]; simp [member])
  obtain ⟨buf2, stored, parsed⟩ := bind_eq_ok.mp parsed
  rw [access_eq_ok, List.append_assoc, List.cons_append, storeNul_inside,
    Option.some.injEq] at stored
  subst stored
  -- the target ends at the second one
  obtain ⟨line1, loaded, parsed⟩ := bind_eq_ok.mp parsed
  obtain ⟨_, whole⟩ := loadString_eq_some_iff.mp (access_eq_ok.mp loaded)
  rw [← List.drop_drop, List.drop_left, List.drop_one, List.tail_cons] at whole
  obtain ⟨more, inside⟩ := prefix_of_eq_append_nul line1.noNul whole
  obtain ⟨sp2, found2, parsed⟩ := bind_eq_ok.mp parsed
  obtain ⟨target, back2, split2, noSpace2, rfl⟩ := strchr_eq_some_iff.mp (require_eq_ok.mp found2)
  obtain ⟨version, rfl⟩ : ∃ version, rest = target ++ space :: version :=
    ⟨back2 ++ more, by rw [← inside, split2]; simp⟩
  have targetNoNul : 0 ∉ target := fun member => line1.noNul (by rw [split2]; simp [member])
  obtain ⟨buf3, stored, parsed⟩ := bind_eq_ok.mp parsed
  have shape : method ++ 0 :: (target ++ space :: version ++ 0 :: lf :: headers) =
      (method ++ 0 :: target) ++ space :: (version ++ 0 :: lf :: headers) := by simp
  have size : method.length + 1 + target.length = (method ++ 0 :: target).length := by
    simp
    omega
  rw [access_eq_ok, shape, size, storeNul_inside, Option.some.injEq] at stored
  subst stored
  -- the method is GET
  obtain ⟨verb, loaded, parsed⟩ := bind_eq_ok.mp parsed
  have same : verb = ⟨method, methodNoNul⟩ := by
    refine Option.some.inj ((access_eq_ok.mp loaded).symm.trans (loadString_eq_some_iff.mpr
      ⟨target ++ 0 :: (version ++ 0 :: lf :: headers), ?_⟩))
    simp
  subst same
  by_cases get : method = ascii "GET"
  · subst get
    simp only [ne_eq, not_true_eq_false, ↓reduceIte] at parsed
    have result := Except.ok.inj parsed
    refine ⟨⟨target, version, headers, ?_, ?_, noSpace2, targetNoNul⟩, ?_⟩
    · rw [text]
      simp
    · convert first using 1
      simp [length_get]
      omega
    · rw [← result]
      simp [LineReading.stored, length_get]
      omega
  · simp [get, throw, throwThe, MonadExceptOf.throw, bind, Except.bind] at parsed

/-- A buffer that is cut so has an accepted request line. -/
theorem LineReading.splitRequestLine {buf : List UInt8} (reading : LineReading buf) :
    splitRequestLine buf = .ok reading.stored := by
  obtain ⟨target, version, headers, text, first, noSpace, noNul⟩ := reading
  have getNoNul : 0 ∉ ascii "GET" := by decide
  unfold Proxy.splitRequestLine
  refine bind_eq_ok.mpr ⟨_, require_eq_ok.mpr
    ((memmemSimple_eq_some_iff (by decide)).mpr first), ?_⟩
  have shape0 : buf = (ascii "GET" ++ space :: (target ++ space :: version)) ++
      cr :: lf :: headers := by rw [text]; simp
  have size0 : 5 + target.length + version.length =
      (ascii "GET" ++ space :: (target ++ space :: version)).length := by simp [length_get]; omega
  refine bind_eq_ok.mpr ⟨_, access_eq_ok.mpr (by rw [shape0, size0, storeNul_inside]), ?_⟩
  have from0 :
      ((ascii "GET" ++ space :: (target ++ space :: version)) ++ 0 :: lf :: headers).drop 0 =
        ascii "GET" ++ space :: (target ++ space :: version ++ 0 :: lf :: headers) := by simp
  obtain ⟨line0, tail0, loaded0, bytes0⟩ :=
    loadString_through getNoNul (by decide) (by simp) from0
  refine bind_eq_ok.mpr ⟨_, access_eq_ok.mpr loaded0, ?_⟩
  refine bind_eq_ok.mpr ⟨3, require_eq_ok.mpr (strchr_eq_some_iff.mpr
    ⟨_, tail0, bytes0, by decide, length_get⟩), ?_⟩
  have shape1 : (ascii "GET" ++ space :: (target ++ space :: version)) ++ 0 :: lf :: headers =
      ascii "GET" ++ space :: (target ++ space :: version ++ 0 :: lf :: headers) := by simp
  refine bind_eq_ok.mpr ⟨_, access_eq_ok.mpr (by rw [shape1, ← length_get, storeNul_inside]), ?_⟩
  have from1 :
      (ascii "GET" ++ 0 :: (target ++ space :: version ++ 0 :: lf :: headers)).drop (3 + 1) =
        target ++ space :: (version ++ 0 :: lf :: headers) := by
    rw [← length_get, ← List.drop_drop]
    simp
  obtain ⟨line1, tail1, loaded1, bytes1⟩ :=
    loadString_through noNul (by decide) (by simp) from1
  refine bind_eq_ok.mpr ⟨_, access_eq_ok.mpr loaded1, ?_⟩
  refine bind_eq_ok.mpr ⟨_, require_eq_ok.mpr (strchr_eq_some_iff.mpr
    ⟨_, tail1, bytes1, noSpace, rfl⟩), ?_⟩
  have shape2 : ascii "GET" ++ 0 :: (target ++ space :: version ++ 0 :: lf :: headers) =
      (ascii "GET" ++ 0 :: target) ++ space :: (version ++ 0 :: lf :: headers) := by simp
  have size2 : 3 + 1 + target.length = (ascii "GET" ++ 0 :: target).length := by
    simp [length_get]
    omega
  refine bind_eq_ok.mpr ⟨_, access_eq_ok.mpr (by rw [shape2, size2, storeNul_inside]), ?_⟩
  refine bind_eq_ok.mpr ⟨⟨ascii "GET", getNoNul⟩, access_eq_ok.mpr (loadString_eq_some_iff.mpr
    ⟨target ++ 0 :: (version ++ 0 :: lf :: headers), by simp⟩), ?_⟩
  simp [LineReading.stored]
  rfl

/-! ## The uri -/

/-- The uri of a target: the part of an absolute target from its first slash on,
`/` if there is none, and any other target as it is. -/
def uriOf (target : List UInt8) : List UInt8 :=
  if (ascii "http://").isPrefixOf target then
    if (target.drop 7).dropWhile (· != slash) = [] then ascii "/"
    else (target.drop 7).dropWhile (· != slash)
  else target

theorem not_of_mem_head?_dropWhile {p : UInt8 → Bool} {l : List UInt8} {c : UInt8}
    (head : c ∈ (l.dropWhile p).head?) : p c = false := by
  have stops := List.head?_dropWhile_not p l
  rw [Option.mem_def.mp head] at stops
  exact stops

theorem drop_length_takeWhile (p : UInt8 → Bool) (l : List UInt8) :
    l.drop (l.takeWhile p).length = l.dropWhile p := by
  have split : l.takeWhile p ++ l.dropWhile p = l := List.takeWhile_append_dropWhile
  calc l.drop (l.takeWhile p).length
      = (l.takeWhile p ++ l.dropWhile p).drop (l.takeWhile p).length := by rw [split]
    _ = l.dropWhile p := List.drop_left

/-- The target, cut off at the front, is the string behind the method. -/
theorem loadString_target {target back : List UInt8} (noNul : 0 ∉ target) {k : Nat}
    (inside : k ≤ target.length) :
    loadString (ascii "GET" ++ 0 :: (target ++ 0 :: back)) (4 + k) =
      some ⟨target.drop k, fun member => noNul (List.mem_of_mem_drop member)⟩ := by
  refine loadString_eq_some_iff.mpr ⟨back, ?_⟩
  have shape : ascii "GET" ++ 0 :: (target ++ 0 :: back) =
      (ascii "GET" ++ [0]) ++ (target ++ 0 :: back) := by simp
  have four : 4 = (ascii "GET" ++ [0]).length := by decide
  rw [shape, ← List.drop_drop, four, List.drop_left, List.drop_append_of_le_length inside]

theorem loadUri_eq_ok_iff {target : CString} {back : List UInt8} {uri : CString} :
    loadUri (ascii "GET" ++ 0 :: (target.bytes ++ 0 :: back)) (findUri 4 target) = .ok uri ↔
      uri.bytes = uriOf target.bytes := by
  have same : ∀ {s : CString} {l : List UInt8}, s.bytes = l →
      ((Except.ok s : Except Stop CString) = .ok uri ↔ uri.bytes = l) := by
    rintro s l rfl
    rw [Except.ok.injEq]
    exact ⟨fun equal => equal ▸ rfl, fun equal => CString.ext_bytes equal.symm⟩
  have cut : target.bytes.drop (7 + ((target.bytes.drop 7).takeWhile (· != slash)).length) =
      (target.bytes.drop 7).dropWhile (· != slash) := by
    rw [← List.drop_drop, drop_length_takeWhile]
  unfold findUri uriOf loadUri
  by_cases absolute : (ascii "http://").isPrefixOf target.bytes
  · simp only [absolute, ↓reduceIte, cut]
    by_cases bare : (target.bytes.drop 7).dropWhile (· != slash) = []
    · simp only [bare, ↓reduceIte]
      exact same rfl
    · have inside : 7 + ((target.bytes.drop 7).takeWhile (· != slash)).length ≤
          target.bytes.length := by
        by_contra outside
        exact bare (by rw [← cut]; exact List.drop_eq_nil_of_le (by omega))
      simp only [bare, ↓reduceIte, Nat.add_assoc, loadString_target target.noNul inside, access]
      exact same cut
  · have loaded := @loadString_target _ back target.noNul 0 (Nat.zero_le _)
    simp only [Nat.add_zero] at loaded
    simp only [absolute, Bool.false_eq_true, ↓reduceIte, loaded, access]
    exact same rfl

/-! ## The whole request -/

/-- How an accepted buffer is cut: the request line, the first `Host:` behind it,
the blanks there, and the value up to the end of the line or of the buffer, where
a NUL can still be stored. -/
structure Reading (buf : List UInt8) where
  line : LineReading buf
  front : List UInt8
  blanks : List UInt8
  value : List UInt8
  after : List UInt8
  text : line.headers = front ++ (ascii "Host:" ++ (blanks ++ (value ++ after)))
  hostFirst : FirstAt (ascii "Host:") line.headers front.length
  blank : ∀ c ∈ blanks, c = space ∨ c = tab
  nonblank : ∀ c ∈ value.head?, c ≠ space ∧ c ≠ tab
  valueLine : ∀ c ∈ value, c ≠ cr ∧ c ≠ lf
  valueEnd : ∀ c ∈ after.head?, c = cr ∨ c = lf
  room : after = [] → buf.length < bufSize

namespace Reading

variable {buf : List UInt8} (reading : Reading buf)

/-- The host and the uri that are read. -/
def request : Request where
  host := ⟨(reading.value.takeWhile (· != 0)).take (hostSize - 1), fun member => by
    simpa using List.mem_takeWhile_imp (List.mem_of_mem_take member)⟩
  uri := ⟨uriOf reading.line.target, by
    have noNul := reading.line.noNul
    unfold uriOf
    split_ifs
    · decide
    · exact fun member => noNul (List.mem_of_mem_drop (List.dropWhile_subset _ member))
    · exact noNul⟩

/-- The buffer in front of the value, after the NULs of the request line were
stored. -/
def beforeValue : List UInt8 :=
  ascii "GET" ++ 0 :: (reading.line.target ++ 0 :: (reading.line.version ++ 0 :: lf ::
    (reading.front ++ (ascii "Host:" ++ reading.blanks))))

theorem stored_buf :
    reading.line.stored.buf = reading.beforeValue ++ (reading.value ++ reading.after) := by
  simp [LineReading.stored, beforeValue, reading.text]

theorem length_beforeValue : reading.beforeValue.length =
    reading.line.stored.headersStart + (reading.front.length + 5 + reading.blanks.length) := by
  simp [LineReading.stored, beforeValue, length_get, length_host]
  omega

/-- The value as `handle_client` reads it, once its end was stored. -/
theorem loadString_value :
    loadString (reading.beforeValue ++ (reading.value ++ 0 :: reading.after.tail))
      reading.beforeValue.length = some ⟨reading.value.takeWhile (· != 0), fun member => by
        simpa using List.mem_takeWhile_imp member⟩ := by
  apply loadString_eq_some_iff.mpr
  simp only [List.drop_left]
  by_cases member : 0 ∈ reading.value
  · obtain ⟨front, back, text, clean⟩ := List.eq_append_cons_of_mem member
    refine ⟨back ++ 0 :: reading.after.tail, ?_⟩
    rw [text, takeWhile_ne_append clean, List.append_assoc, List.cons_append]
  · refine ⟨reading.after.tail, ?_⟩
    rw [List.takeWhile_eq_self_iff.mpr]
    intro c inside
    have other : c ≠ 0 := fun same => member (same ▸ inside)
    simpa using other

/-- What `find_host_header` finds, and the value behind it. -/
theorem findHostHeader_eq : findHostHeader reading.line.headers =
    some (reading.front.length + 5 + reading.blanks.length) := by
  have behind : reading.line.headers.drop (reading.front.length + 5) =
      reading.blanks ++ (reading.value ++ reading.after) := by
    rw [reading.text, drop_host]
  have blanks : (reading.blanks ++ (reading.value ++ reading.after)).takeWhile
      (fun c => c == space || c == tab) = reading.blanks := by
    rw [List.takeWhile_append_of_pos (fun c inside => by simpa using reading.blank c inside)]
    cases shape : reading.value ++ reading.after with
    | nil => simp
    | cons c rest =>
        have stops : c ≠ space ∧ c ≠ tab := by
          cases value : reading.value with
          | nil =>
              have head : c ∈ reading.after.head? := by simp_all
              rcases reading.valueEnd c head with rfl | rfl <;> decide
          | cons d more =>
              obtain rfl : d = c := by simp_all
              exact reading.nonblank d (by simp [value])
        simp [stops]
  rw [findHostHeader, (memmemSimple_eq_some_iff (by decide)).mpr reading.hostFirst,
    Option.map_some, behind, blanks]

/-- The value ends where `handle_client` stores the last NUL. -/
theorem takeWhile_value : (reading.value ++ reading.after).takeWhile
    (fun c => c != cr && c != lf) = reading.value := by
  rw [List.takeWhile_append_of_pos (fun c inside => by simpa using reading.valueLine c inside)]
  cases after : reading.after with
  | nil => simp
  | cons c rest =>
      rcases reading.valueEnd c (by simp [after]) with rfl | rfl <;> simp

end Reading

/-- **A buffer that is cut as a `Reading` says is accepted**, with its host and its
uri. -/
theorem Reading.parseRequest {buf : List UInt8} (reading : Reading buf) :
    parseRequest buf = .ok reading.request := by
  have place := reading.length_beforeValue
  have split := reading.stored_buf
  unfold Proxy.parseRequest
  refine bind_eq_ok.mpr ⟨_, reading.line.splitRequestLine, ?_⟩
  refine bind_eq_ok.mpr ⟨⟨reading.line.target, reading.line.noNul⟩, access_eq_ok.mpr ?_, ?_⟩
  · exact loadString_target reading.line.noNul (Nat.zero_le _)
  refine bind_eq_ok.mpr ⟨_, require_eq_ok.mpr
    (by rw [reading.line.drop_stored]; exact reading.findHostHeader_eq), ?_⟩
  dsimp only
  rw [← place, split, List.drop_left, reading.takeWhile_value]
  refine bind_eq_ok.mpr ⟨reading.beforeValue ++ (reading.value ++ 0 :: reading.after.tail),
    access_eq_ok.mpr ?_, ?_⟩
  · have shape : reading.beforeValue ++ (reading.value ++ reading.after) =
        (reading.beforeValue ++ reading.value) ++ reading.after := by simp
    rw [shape, ← List.length_append, storeNul_append]
    refine ⟨fun none => ?_, by simp⟩
    have size := congrArg List.length split
    rw [reading.line.length_stored, none, List.append_nil] at size
    rw [← size]
    exact reading.room none
  refine bind_eq_ok.mpr ⟨_, access_eq_ok.mpr reading.loadString_value, ?_⟩
  refine bind_eq_ok.mpr ⟨reading.request.uri, ?_, rfl⟩
  have shape : reading.beforeValue ++ (reading.value ++ 0 :: reading.after.tail) =
      ascii "GET" ++ 0 :: (reading.line.target ++ 0 :: (reading.line.version ++ 0 :: lf ::
        (reading.front ++ (ascii "Host:" ++ (reading.blanks ++ (reading.value ++ 0 ::
          reading.after.tail)))))) := by
    simp [Reading.beforeValue]
  rw [shape]
  exact loadUri_eq_ok_iff.mpr rfl

/-- **An accepted buffer is cut as a `Reading` says.** -/
theorem exists_reading {buf : List UInt8} {request : Request}
    (parsed : parseRequest buf = .ok request) :
    ∃ reading : Reading buf, reading.request = request := by
  have whole := parsed
  unfold parseRequest at parsed
  obtain ⟨line, cut, parsed⟩ := bind_eq_ok.mp parsed
  obtain ⟨reading, rfl⟩ := exists_lineReading cut
  obtain ⟨target, loaded, parsed⟩ := bind_eq_ok.mp parsed
  obtain rfl := Option.some.inj ((access_eq_ok.mp loaded).symm.trans
    (loadString_target reading.noNul (Nat.zero_le _)))
  obtain ⟨header, found, parsed⟩ := bind_eq_ok.mp parsed
  rw [require_eq_ok, reading.drop_stored] at found
  obtain ⟨p, first, rfl⟩ := Option.map_eq_some_iff.mp found
  rw [memmemSimple_eq_some_iff (by decide)] at first
  obtain ⟨front, back, text, rfl⟩ := first.split (by decide)
  obtain ⟨blanks, tail, rfl, same, nonblank⟩ : ∃ blanks tail, back = blanks ++ tail ∧
      back.takeWhile (fun c => c == space || c == tab) = blanks ∧
      ∀ c ∈ tail.head?, c ≠ space ∧ c ≠ tab :=
    ⟨_, _, List.takeWhile_append_dropWhile.symm, rfl, fun c head => by
      simpa using not_of_mem_head?_dropWhile head⟩
  obtain ⟨value, after, rfl, stop, valueEnd⟩ : ∃ value after, tail = value ++ after ∧
      tail.takeWhile (fun c => c != cr && c != lf) = value ∧
      ∀ c ∈ after.head?, c = cr ∨ c = lf :=
    ⟨_, _, List.takeWhile_append_dropWhile.symm, rfl, fun c head =>
      or_iff_not_imp_left.mpr (by simpa using not_of_mem_head?_dropWhile head)⟩
  obtain ⟨before, split, place⟩ : ∃ before,
      reading.stored.buf = before ++ (value ++ after) ∧
        before.length = reading.stored.headersStart + (front.length + 5 + blanks.length) := by
    refine ⟨ascii "GET" ++ 0 :: (reading.target ++ 0 :: (reading.version ++ 0 :: lf ::
      (front ++ (ascii "Host:" ++ blanks)))), by simp [LineReading.stored, text], ?_⟩
    simp [LineReading.stored, length_get, length_host]
    omega
  have behind : reading.headers.drop (front.length + 5) = blanks ++ (value ++ after) := by
    rw [text, drop_host]
  dsimp only at parsed
  rw [behind, same, ← place, split, List.drop_left, stop] at parsed
  obtain ⟨buf4, stored, _⟩ := bind_eq_ok.mp parsed
  rw [access_eq_ok, ← List.append_assoc, ← List.length_append, storeNul_append] at stored
  have full : Reading buf :=
    { line := reading
      front := front
      blanks := blanks
      value := value
      after := after
      text := text
      hostFirst := first
      blank := fun c inside => by
        rw [← same] at inside
        simpa using List.mem_takeWhile_imp inside
      nonblank := fun c head => nonblank c (by simp [Option.mem_def.mp head])
      valueLine := fun c inside => by
        rw [← stop] at inside
        simpa using List.mem_takeWhile_imp inside
      valueEnd := valueEnd
      room := fun none => by
        rw [← reading.length_stored, split, none, List.append_nil]
        exact stored.1 none }
  exact ⟨full, Except.ok.inj (full.parseRequest.symm.trans whole)⟩

end OperationSystems.Proxy
