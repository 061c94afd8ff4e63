import Mathlib.Data.List.Find
import OperationSystems.Proxy.Buffers
import OperationSystems.Proxy.CacheKey

/-!
# Where the parser leaves its arrays

On its arrays the parser does what `parseRequest` says of the text received, and the only
access that can leave an array is the last store into `buf`: the NUL behind the value of
`Host:` falls on `buf[8192]` exactly when `buf` is full and the value runs to its end.
-/

namespace OperationSystems.Proxy

namespace Buffers

open CStrings CArrays

variable {α β γ δ : Type} {size : ℕ} {text needle : List UInt8}

/-! ## Agreement -/

/-- Two parsers end in the same way, with related results; where `faulty` fails, neither
leaves an array. -/
inductive Agree (faulty : Prop) (related : α → β → Prop) : Except Stop α → Except Stop β → Prop
  | ok {a : α} {b : β} : related a b → Agree faulty related (.ok a) (.ok b)
  | rejected (why : Reject) :
      Agree faulty related (.error (.rejected why)) (.error (.rejected why))
  | fault : faulty → Agree faulty related (.error .fault) (.error .fault)

/-- Two parts that agree one behind the other. -/
theorem Agree.bind {faulty : Prop} {related : α → β → Prop} {related' : γ → δ → Prop}
    {x : Except Stop α} {y : Except Stop β} {f : α → Except Stop γ} {g : β → Except Stop δ}
    (agree : Agree faulty related x y)
    (next : ∀ a b, y = .ok b → related a b → Agree faulty related' (f a) (g b)) :
    Agree faulty related' (x >>= f) (y >>= g) := by
  cases agree with
  | ok holds => exact next _ _ rfl holds
  | rejected why => exact .rejected why
  | fault holds => exact .fault holds

/-- A fault that is admitted is admitted by less. -/
theorem Agree.mono {faulty faulty' : Prop} {related : α → β → Prop} {x : Except Stop α}
    {y : Except Stop β} (agree : Agree faulty related x y) (wider : faulty → faulty') :
    Agree faulty' related x y := by
  cases agree with
  | ok holds => exact .ok holds
  | rejected why => exact .rejected why
  | fault holds => exact .fault (wider holds)

@[simp] theorem access_some (a : α) : access (some a) = .ok a := rfl

@[simp] theorem require_some (why : Reject) (a : α) : require why (some a) = .ok a := rfl

@[simp] theorem require_none (why : Reject) :
    require why (none : Option α) = .error (.rejected why) := rfl

@[simp] theorem ok_bind (a : α) (f : α → Except Stop β) : (Except.ok a >>= f) = f a := rfl

@[simp] theorem error_bind (stop : Stop) (f : α → Except Stop β) :
    (Except.error stop >>= f) = .error stop := rfl

/-! ## The searches -/

/-- `memmem_simple` on the array finds the first place in what it sees. -/
theorem memmemLoop_eq {buf : CArray size} {haystack left i : ℕ}
    (inside : ∀ j < i + left, haystack + j + needle.length ≤ size) :
    memmemLoop buf haystack needle left i =
      some (((List.range' i left).find? fun j =>
        (buf.pointer (haystack + j)).take needle.length == needle).map (haystack + ·)) := by
  induction left generalizing i with
  | zero => rfl
  | succ left ih =>
      have here : haystack + i + needle.length ≤ size := inside i (by omega)
      rw [memmemLoop, CArray.loadBlock_eq here, List.range'_succ, List.find?_cons]
      by_cases same : (buf.pointer (haystack + i)).take needle.length = needle
      · simp [same]
      · have ahead : ∀ j < i + 1 + left, haystack + j + needle.length ≤ size :=
          fun j below => inside j (by omega)
        have differs : ((buf.pointer (haystack + i)).take needle.length == needle) = false := by
          simpa using same
        simp only [Option.bind_eq_bind, Option.bind_some, if_neg same, differs]
        exact ih ahead

/-- In an array that holds a text, `memmem_simple` searches the text. -/
theorem memmemSimple_eq (needle : List UInt8) {buf : CArray size} {start : ℕ}
    (holds : buf.Holds text) (inside : start ≤ text.length) :
    memmemSimple buf start (text.length - start) needle =
      some ((Proxy.memmemSimple (text.drop start) needle).map (start + ·)) := by
  have room := holds.length_le
  unfold memmemSimple Proxy.memmemSimple
  rw [List.length_drop]
  by_cases short : needle.length = 0 ∨ text.length - start < needle.length
  · rw [if_pos short, if_pos short]
    rfl
  · rw [if_neg short, if_neg short, memmemLoop_eq fun j below => by omega, List.range_eq_range']
    congr 2
    apply List.find?_congr
    intro j member
    have below := (List.mem_range'_1.mp member).2
    obtain ⟨more, whole⟩ := holds.pointer (i := start + j) (by omega)
    rw [← whole, List.take_append_of_le_length (by rw [List.length_drop]; omega), List.drop_drop]

/-- A search finds the needle inside. -/
theorem memmemSimple_inside {haystack : List UInt8} {i : ℕ}
    (found : Proxy.memmemSimple haystack needle = some i) :
    i + needle.length ≤ haystack.length := by
  unfold Proxy.memmemSimple at found
  split_ifs at found with short
  have member := List.mem_of_find?_eq_some found
  rw [List.mem_range] at member
  omega

/-- `find_host_header` on the array is that on the text behind its start. -/
theorem findHostHeader_eq {buf : CArray size} {start : ℕ} (holds : buf.Holds text)
    (inside : start ≤ text.length) :
    findHostHeader buf start (text.length - start) =
      some ((Proxy.findHostHeader (text.drop start)).map (start + ·)) := by
  unfold findHostHeader Proxy.findHostHeader
  rw [memmemSimple_eq _ holds inside]
  cases found : Proxy.memmemSimple (text.drop start) (ascii "Host:") with
  | none => rfl
  | some p =>
      have within := memmemSimple_inside found
      rw [List.length_drop, length_host] at within
      have left : start + (text.length - start) - (start + p + 5) =
          text.length - (start + p + 5) := by omega
      have size' : text.length - (start + p + 5) ≤ (buf.pointer (start + p + 5)).length := by
        rw [CArray.pointer, List.length_drop, buf.length_bytes]
        have := holds.length_le
        omega
      simp only [Option.bind_eq_bind, Option.bind_some, Option.map_some, left,
        scanBelow_eq size', holds.take (by omega : start + p + 5 ≤ text.length), List.drop_drop]
      simp only [Nat.add_assoc]

/-! ## NULs in the text -/

/-- A NUL at `i` ends every string that starts in front of it. -/
theorem loadString_of_nul {p i : ℕ} (nul : text[i]? = some 0) (before : p ≤ i) :
    ∃ s, loadString text p = some s ∧ p + s.bytes.length ≤ i := by
  have member : 0 ∈ text.drop p := by
    apply List.mem_of_getElem? (i := i - p)
    rw [List.getElem?_drop, Nat.add_sub_cancel' before]
    exact nul
  obtain ⟨s, loaded⟩ : ∃ s, loadString text p = some s := ⟨_, if_pos member⟩
  refine ⟨s, loaded, ?_⟩
  obtain ⟨rest, behind⟩ := loadString_eq_some_iff.mp loaded
  by_contra later
  apply s.noNul
  apply List.mem_of_getElem? (i := i - p)
  rw [← nul, ← Nat.add_sub_cancel' before, ← List.getElem?_drop, behind,
    List.getElem?_append_left (by omega), Nat.add_sub_cancel_left]

/-- A NUL that is stored stays there. -/
theorem storeNul_nul {i : ℕ} {text' : List UInt8} (stored : storeNul size text i = some text') :
    text'[i]? = some 0 := by
  unfold storeNul at stored
  split_ifs at stored with inside behind
  · obtain rfl := Option.some.inj stored
    simp [inside]
  · obtain rfl := Option.some.inj stored
    simp [behind.1]

/-- A terminator stays one when another one is stored. -/
theorem storeNul_keeps {i j : ℕ} {text' : List UInt8}
    (stored : storeNul size text i = some text') (nul : text[j]? = some 0) :
    text'[j]? = some 0 := by
  have below : j < text.length := (List.getElem?_eq_some_iff.mp nul).1
  unfold storeNul at stored
  split_ifs at stored with inside behind
  · obtain rfl := Option.some.inj stored
    by_cases same : i = j
    · simp [same, below]
    · rw [List.getElem?_set_ne same, nul]
  · obtain rfl := Option.some.inj stored
    rw [List.getElem?_append_left below, nul]

/-- A NUL stored over a byte of the text. -/
theorem store_inside {buf : CArray size} {i : ℕ} (holds : buf.Holds text)
    (inside : i < text.length) : ∃ next text', buf.store i 0 = some next ∧
      storeNul size text i = some text' ∧ next.Holds text' ∧ text'.length = text.length := by
  have stored : storeNul size text i = some (text.set i 0) := if_pos inside
  obtain ⟨next, done, holds'⟩ := holds.storeNul stored
  exact ⟨next, text.set i 0, done, stored, holds', List.length_set⟩

/-- What `strchr` finds lies inside the string. -/
theorem strchr_inside {s : CString} {c : UInt8} {i : ℕ} (found : CStrings.strchr s c = some i) :
    i < s.bytes.length := by
  obtain ⟨front, back, whole, _, rfl⟩ := strchr_eq_some_iff.mp found
  rw [whole]
  simp

/-! ## The request line -/

/-- The request line is split in the array as in the text. -/
theorem splitRequestLine_agrees {buf : CArray bufSize} (holds : buf.Holds text) :
    Agree False (fun line line' => line.buf.Holds line'.buf ∧ line.path = line'.path ∧
      line.headersStart = line'.headersStart)
      (splitRequestLine buf text.length) (Proxy.splitRequestLine text) := by
  unfold splitRequestLine Proxy.splitRequestLine
  have search := memmemSimple_eq (ascii "\r\n") holds (Nat.zero_le _)
  rw [Nat.sub_zero, List.drop_zero] at search
  cases found : Proxy.memmemSimple text (ascii "\r\n") with
  | none =>
      simp only [search, found, Option.map_none, access_some, ok_bind, require_none, error_bind]
      exact .rejected .noCrlf
  | some lineEnd =>
      have inside := memmemSimple_inside found
      rw [length_crlf] at inside
      obtain ⟨buf1, text1, done1, stored1, holds1, length1⟩ :=
        store_inside (i := lineEnd) holds (by omega)
      have nul1 := storeNul_nul stored1
      obtain ⟨line, loaded, short⟩ := loadString_of_nul nul1 (Nat.zero_le _)
      simp only [search, found, Option.map_some, Nat.zero_add, access_some, ok_bind, require_some,
        done1, stored1, loaded, holds1.strchr loaded (c := space) (by decide)]
      cases found1 : CStrings.strchr line space with
      | none =>
          simp only [require_none, error_bind]
          exact .rejected .noSpaceAfterMethod
      | some sp1 =>
          have inside1 := strchr_inside found1
          obtain ⟨buf2, text2, done2, stored2, holds2, length2⟩ :=
            store_inside (i := sp1) holds1 (by omega)
          have nul2 := storeNul_keeps stored2 nul1
          obtain ⟨rest, loaded', short'⟩ := loadString_of_nul (p := sp1 + 1) nul2 (by omega)
          simp only [require_some, ok_bind, done2, stored2, access_some, loaded',
            holds2.strchr loaded' (c := space) (by decide)]
          cases found2 : CStrings.strchr rest space with
          | none =>
              simp only [require_none, error_bind]
              exact .rejected .noSpaceBeforeHttp
          | some sp2 =>
              have inside2 := strchr_inside found2
              obtain ⟨buf3, text3, done3, stored3, holds3, _⟩ :=
                store_inside (i := sp1 + 1 + sp2) holds2 (by omega)
              obtain ⟨method, loaded3, _⟩ :=
                loadString_of_nul (storeNul_keeps stored3 (storeNul_nul stored2)) (Nat.zero_le _)
              obtain ⟨back, whole⟩ := holds3.string loaded3
              have compared := strcmp_string (ascii "GET") back (by decide) method
              simp only [require_some, ok_bind, done3, stored3, access_some, loaded3, whole,
                compared]
              by_cases get : method.bytes = ascii "GET"
              · simp only [get, decide_true, Bool.not_true, ne_eq, not_true_eq_false, if_false,
                  Bool.false_eq_true]
                exact .ok ⟨holds3, rfl, rfl⟩
              · simp only [get, decide_false, Bool.not_false, ne_eq, not_false_eq_true, if_true]
                exact .rejected .unsupportedMethod

/-- The headers begin inside the text. -/
theorem headersStart_le (reading : LineReading text) :
    reading.stored.headersStart ≤ reading.stored.buf.length := by
  simp only [LineReading.stored, List.length_append, List.length_cons, length_get]
  omega

/-- The NUL behind the target. -/
theorem nul_target (reading : LineReading text) :
    reading.stored.buf[4 + reading.target.length]? = some 0 := by
  have four : 4 = (ascii "GET" ++ [0]).length := by decide
  have shape : reading.stored.buf = (ascii "GET" ++ [0]) ++ (reading.target ++
      0 :: (reading.version ++ 0 :: lf :: reading.headers)) := by
    simp [LineReading.stored]
  rw [shape, four, List.getElem?_append_right (Nat.le_add_right _ _), Nat.add_sub_cancel_left,
    List.getElem?_append_right (le_refl _), Nat.sub_self]
  rfl

/-! ## The uri -/

/-- The loop that looks for the path of an absolute target stops at a slash or at the NUL. -/
theorem scan_uri {more : List UInt8} (rest : List UInt8) (noNul : ∀ c ∈ more, c ≠ 0) :
    ∃ c, scan (fun c => c != 0 && c != slash) (more ++ 0 :: rest) =
        some (more.takeWhile (· != slash)).length ∧
      (more ++ 0 :: rest)[(more.takeWhile (· != slash)).length]? = some c ∧
        (c = 0 ↔ more.drop (more.takeWhile (· != slash)).length = []) := by
  rw [drop_length_takeWhile]
  obtain ⟨front, back, whole, first, last⟩ : ∃ front back, more = front ++ back ∧
      more.takeWhile (· != slash) = front ∧ more.dropWhile (· != slash) = back :=
    ⟨_, _, List.takeWhile_append_dropWhile.symm, rfl, rfl⟩
  have passes : ∀ c ∈ front, (c != 0 && c != slash) = true := by
    intro c member
    have other : c ≠ 0 := noNul c (whole ▸ List.mem_append_left _ member)
    rw [← first] at member
    simpa [other] using List.mem_takeWhile_imp member
  rw [first, last, whole, List.append_assoc]
  cases back with
  | nil => exact ⟨0, scan_append passes rfl, by simp, by simp⟩
  | cons c back =>
      have head : c ∈ (more.dropWhile (· != slash)).head? := by
        rw [last]
        rfl
      obtain rfl : c = slash := by simpa using not_of_mem_head?_dropWhile head
      exact ⟨slash, scan_append passes rfl, by simp, by simp [slash]⟩

/-- The uri is found in the array as in the target. -/
theorem findUri_eq {buf : CArray bufSize} {path : ℕ} {target : CString} (holds : buf.Holds text)
    (loaded : loadString text path = some target) :
    findUri buf path = some (Proxy.findUri path target) := by
  obtain ⟨rest, behind⟩ := holds.string loaded
  have seven : (ascii "http://").length = 7 := by decide
  have compared := strncmp_string (ascii "http://") rest (by decide) target
  unfold findUri Proxy.findUri
  rw [behind, ← seven, compared, seven]
  by_cases absolute : (ascii "http://").isPrefixOf target.bytes = true
  · obtain ⟨more, whole⟩ := List.isPrefixOf_iff_prefix.mp absolute
    have behind' : buf.pointer (path + 7) = more ++ 0 :: rest := by
      unfold CArray.pointer at behind ⊢
      rw [← List.drop_drop, behind, ← whole, ← seven, List.append_assoc, List.drop_left]
    have cut : target.bytes.drop 7 = more := by rw [← whole, ← seven, List.drop_left]
    have noNul : ∀ c ∈ more, c ≠ 0 := by
      intro c member same
      apply target.noNul
      rw [← whole, ← same]
      exact List.mem_append_right _ member
    obtain ⟨c, passed, here, ends⟩ := scan_uri rest noNul
    have loaded' : buf.load (path + 7 + (more.takeWhile (· != slash)).length) = some c := by
      rw [← here, ← behind']
      exact List.getElem?_drop.symm
    have ends' : c = 0 ↔
        target.bytes.drop (7 + (more.takeWhile (· != slash)).length) = [] := by
      rw [ends, ← List.drop_drop, cut]
    simp only [absolute, ↓reduceIte, Option.bind_eq_bind, Option.bind_some, behind', passed,
      loaded', cut, ends']
  · simp only [absolute]
    rfl

/-- The uri lies inside the target. -/
theorem findUri_inside {path uri : ℕ} {target : CString}
    (found : Proxy.findUri path target = some uri) : uri ≤ path + target.bytes.length := by
  unfold Proxy.findUri at found
  dsimp only at found
  split_ifs at found with absolute bare
  · have below : 7 + ((target.bytes.drop 7).takeWhile (· != slash)).length ≤
        target.bytes.length := by
      by_contra outside
      exact bare (List.drop_eq_nil_of_le (by omega))
    have place := Option.some.inj found
    omega
  · have place := Option.some.inj found
    omega

/-- The header lies inside the headers. -/
theorem findHostHeader_inside {headers : List UInt8} {header : ℕ}
    (found : Proxy.findHostHeader headers = some header) : header ≤ headers.length := by
  obtain ⟨p, first, rfl⟩ := Option.map_eq_some_iff.mp found
  have within := memmemSimple_inside first
  rw [length_host] at within
  have blanks := (List.takeWhile_sublist (fun c => c == space || c == tab)
    (l := headers.drop (p + 5))).length_le
  rw [List.length_drop] at blanks
  omega

/-- Where the value behind the first `Host:` starts. -/
theorem findHostHeader_of_first {headers : List UInt8} {i : ℕ}
    (first : FirstAt (ascii "Host:") headers i) : Proxy.findHostHeader headers =
      some (i + 5 + ((headers.drop (i + 5)).takeWhile fun c => c == space || c == tab).length) := by
  rw [Proxy.findHostHeader, (memmemSimple_eq_some_iff (by decide)).mpr first, Option.map_some]

/-! ## The copies -/

theorem holds_nil (a : CArray size) : a.Holds [] := List.nil_prefix

/-- A text and the NUL behind it, at the front of an array. -/
theorem loadString_front {a : CArray size} {s : CString} (holds : a.Holds (s.bytes ++ [0])) :
    loadString a.bytes 0 = some s :=
  holds.loadString (loadString_eq_some_iff.mpr ⟨[], rfl⟩)

/-- `host` after `memcpy` and the NUL behind the copy. -/
theorem copy_host (host : CArray hostSize) (s : CString) (short : s.bytes.length < hostSize) :
    ∃ copied next, host.storeBlock 0 s.bytes = some copied ∧
      copied.store s.bytes.length 0 = some next ∧ loadString next.bytes 0 = some s := by
  obtain ⟨copied, done, holds⟩ := (holds_nil host).storeBlock s.bytes
    (by rw [List.length_nil]; omega)
  have stored : storeNul hostSize s.bytes s.bytes.length = some (s.bytes ++ [0]) := by
    unfold storeNul
    rw [if_neg (lt_irrefl _), if_pos ⟨rfl, short⟩]
  obtain ⟨next, done', holds'⟩ := holds.storeNul stored
  exact ⟨copied, next, done, done', loadString_front holds'⟩

/-- `snprintf` into an array leaves the string, cut to its size. -/
theorem snprintf_eq (a : CArray size) (positive : 0 < size) (s : CString) :
    ∃ next, snprintf a size s.bytes = some next ∧
      loadString next.bytes 0 = some (Proxy.snprintf size s) := by
  obtain ⟨next, done, holds⟩ := (holds_nil a).storeBlock
    (s.bytes.take (size - 1) ++ [0]) (by
      simp only [List.length_append, List.length_take, List.length_nil, List.length_singleton]
      omega)
  exact ⟨next, done, loadString_front (s := Proxy.snprintf size s) holds⟩

/-- What the arrays hold for an accepted request. -/
def Prepared (memory : Memory) (request : Request) : Prop :=
  loadString memory.host.bytes 0 = some request.host ∧
    loadString memory.key.bytes 0 = some request.key

/-- The uri as `%s` reads it. -/
theorem loadUri_eq {buf : CArray bufSize} {uri : Option ℕ} {u : CString} (holds : buf.Holds text)
    (loaded : Proxy.loadUri text uri = .ok u) : loadUri buf uri = some u := by
  cases uri with
  | none =>
      obtain rfl := Except.ok.inj loaded
      rfl
  | some uri => exact holds.loadString (access_eq_ok.mp loaded)

/-- The key is printed from the strings of the array. -/
theorem printKey_eq (memory : Memory) {buf : CArray bufSize} {hostStart : ℕ}
    {uri : Option ℕ} {s u : CString} (holds : buf.Holds text)
    (loaded : loadString text hostStart = some s) (loadedUri : Proxy.loadUri text uri = .ok u) :
    ∃ next, printKey memory buf hostStart uri = .ok next ∧ Prepared next
      { host := s.part (s.bytes.take (hostSize - 1)) (List.take_subset _ _), uri := u } := by
  obtain ⟨rest, behind⟩ := holds.string loaded
  have whole := congrArg List.length behind
  rw [CArray.pointer, List.length_drop, buf.length_bytes, List.length_append,
    List.length_cons] at whole
  -- the length that is copied
  obtain ⟨hostLen, cut⟩ : ∃ hostLen, hostLen =
      if hostSize ≤ s.bytes.length then hostSize - 1 else s.bytes.length := ⟨_, rfl⟩
  have short : hostLen ≤ s.bytes.length ∧ hostLen < hostSize ∧
      s.bytes.take hostLen = s.bytes.take (hostSize - 1) ∧
        (s.bytes.take hostLen).length = hostLen := by
    rw [cut, List.length_take]
    split_ifs with long
    · refine ⟨?_, ?_, rfl, ?_⟩ <;> unfold hostSize at * <;> omega
    · refine ⟨le_refl _, not_le.mp long, ?_, min_self _⟩
      rw [List.take_of_length_le (le_refl _), List.take_of_length_le (by omega)]
  obtain ⟨inside, fits, same, length⟩ := short
  have copied : buf.loadBlock hostStart hostLen = some (s.bytes.take (hostSize - 1)) := by
    rw [CArray.loadBlock_eq (by omega), behind, List.take_append_of_le_length inside, same]
  rw [same] at length
  let request : Request :=
    { host := s.part (s.bytes.take (hostSize - 1)) (List.take_subset _ _), uri := u }
  have fits' : request.host.bytes.length < hostSize := length ▸ fits
  obtain ⟨front, host, done, done', kept⟩ := copy_host memory.host request.host fits'
  have done' : front.store hostLen 0 = some host := length ▸ done'
  obtain ⟨key, printed, kept'⟩ := snprintf_eq memory.key (by decide) request.keyText
  refine ⟨{ buf := buf, host := host, key := key }, ?_, kept, kept'⟩
  unfold printKey
  simp only [holds.strlen loaded, access_some, ok_bind, ← cut, copied]
  rw [show memory.host.storeBlock 0 (s.bytes.take (hostSize - 1)) = some front from done]
  simp only [access_some, ok_bind, done', kept, loadUri_eq holds loadedUri]
  rw [show snprintf memory.key keySize (request.host.bytes ++ space :: u.bytes) = some key
    from printed]
  rfl

/-! ## The whole request -/

/-- `buf` is full, and from the first `Host:` behind the request line on there is no end
of a line. -/
def RunsOut (text : List UInt8) : Prop :=
  text.length = bufSize ∧ ∃ (line : LineReading text) (front rest : List UInt8),
    line.headers = front ++ (ascii "Host:" ++ rest) ∧
      FirstAt (ascii "Host:") line.headers front.length ∧ ∀ c ∈ rest, c ≠ cr ∧ c ≠ lf

/-- A value that runs to the end of a full buffer. -/
theorem runsOut_of_fault (reading : LineReading text) {header : ℕ}
    (found : Proxy.findHostHeader reading.headers = some header) (full : text.length = bufSize)
    (whole : ∀ c ∈ reading.headers.drop header, c ≠ cr ∧ c ≠ lf) : RunsOut text := by
  obtain ⟨p, first, rfl⟩ := Option.map_eq_some_iff.mp found
  rw [memmemSimple_eq_some_iff (by decide)] at first
  obtain ⟨front, rest, split, rfl⟩ := first.split (by decide)
  have behind : reading.headers.drop (front.length + 5) = rest := by
    rw [split, drop_host]
  refine ⟨full, reading, front, rest, split, first, fun c member => ?_⟩
  rw [behind, ← List.drop_drop, behind, drop_length_takeWhile] at whole
  rw [← List.takeWhile_append_dropWhile (p := fun c => c == space || c == tab) (l := rest)]
    at member
  obtain blank | value := List.mem_append.mp member
  · have is : c = space ∨ c = tab := by simpa using List.mem_takeWhile_imp blank
    obtain rfl | rfl := is <;> decide
  · exact whole c value

/-- The NUL behind the value is stored inside `buf`, unless the text runs out. -/
theorem runsOut_of_storeNul (reading : LineReading text) {header : ℕ} {value : List UInt8}
    (found : Proxy.findHostHeader reading.headers = some header)
    (room : text.length ≤ bufSize)
    (split : (reading.headers.drop header).takeWhile (fun c => c != cr && c != lf) = value)
    (stored : storeNul bufSize reading.stored.buf
      (reading.stored.headersStart + header + value.length) = none) : RunsOut text := by
  have size := reading.length_stored
  have start := headersStart_le reading
  have below := findHostHeader_inside found
  have headers := congrArg List.length reading.drop_stored
  have fits := (List.takeWhile_sublist (fun c => c != cr && c != lf)
    (l := reading.headers.drop header)).length_le
  rw [List.length_drop] at headers fits
  rw [split] at fits
  have last : reading.stored.headersStart + header + value.length = text.length ∧
      text.length = bufSize := by
    unfold storeNul at stored
    split_ifs at stored
    omega
  have all : value = reading.headers.drop header := by
    rw [← split]
    apply (List.takeWhile_prefix _).eq_of_length
    rw [split, List.length_drop]
    omega
  apply runsOut_of_fault reading found last.2
  intro c member
  rw [← all, ← split] at member
  simpa using List.mem_takeWhile_imp member

/-- With a NUL behind the target the uri is a string. -/
theorem exists_loadUri {target : CString} {path i : ℕ} (nul : text[i]? = some 0)
    (inside : path + target.bytes.length ≤ i) :
    ∃ u, Proxy.loadUri text (Proxy.findUri path target) = .ok u := by
  cases pointer : Proxy.findUri path target with
  | none => exact ⟨rootUri, rfl⟩
  | some uri =>
      obtain ⟨u, loaded, _⟩ := loadString_of_nul nul ((findUri_inside pointer).trans inside)
      exact ⟨u, access_eq_ok.mpr loaded⟩

/-- **The parser on its arrays.** It ends as the parser on the received text does, with
the same host and the same key, and leaves an array only where the text runs out. -/
theorem parse_agrees {memory : Memory} (holds : memory.buf.Holds text) :
    Agree (RunsOut text) Prepared (parse memory text.length) (parseRequest text) := by
  unfold parse parseRequest
  apply Agree.bind ((splitRequestLine_agrees holds).mono False.elim)
  rintro ⟨buf, _, _⟩ line' cut ⟨holds', rfl, rfl⟩
  obtain ⟨reading, rfl⟩ := exists_lineReading cut
  have size := reading.length_stored
  have start := headersStart_le reading
  have nul := nul_target reading
  -- the target
  obtain ⟨target, loaded, short⟩ := loadString_of_nul nul (Nat.le_add_right _ _)
  have path : reading.stored.path = 4 := rfl
  simp only [path, findUri_eq holds' loaded, loaded, access_some, ok_bind]
  -- the value of the header
  have search := findHostHeader_eq holds' start
  rw [size] at search
  rw [search, reading.drop_stored]
  cases found : Proxy.findHostHeader reading.headers with
  | none => exact .rejected .noHostHeader
  | some header =>
      have below := findHostHeader_inside found
      have headers := congrArg List.length reading.drop_stored
      rw [List.length_drop] at headers
      simp only [Option.map_some, access_some, require_some, ok_bind]
      obtain ⟨hostStart, place⟩ : ∃ hostStart, hostStart = reading.stored.headersStart + header :=
        ⟨_, rfl⟩
      have behind : reading.stored.buf.drop hostStart = reading.headers.drop header := by
        rw [place, ← List.drop_drop, reading.drop_stored]
      have room : text.length - hostStart ≤ (buf.pointer hostStart).length := by
        rw [CArray.pointer, List.length_drop, buf.length_bytes, ← size]
        have := holds'.length_le
        omega
      have known := holds'.take (by omega : hostStart ≤ reading.stored.buf.length)
      rw [size] at known
      rw [← place, scanBelow_eq room, known, behind]
      obtain ⟨value, split⟩ : ∃ value,
          (reading.headers.drop header).takeWhile (fun c => c != cr && c != lf) = value := ⟨_, rfl⟩
      simp only [split, access_some, ok_bind]
      cases stored : storeNul bufSize reading.stored.buf (hostStart + value.length) with
      | none =>
          have fits := (List.takeWhile_sublist (fun c => c != cr && c != lf)
            (l := reading.headers.drop header)).length_le
          rw [split, List.length_drop] at fits
          simp only [holds'.storeNul_none (by omega) stored]
          rw [place] at stored
          exact .fault (runsOut_of_storeNul reading found holds.length_le split stored)
      | some text' =>
          obtain ⟨buf', done, holds''⟩ := holds'.storeNul stored
          obtain ⟨s, loadedHost, _⟩ :=
            loadString_of_nul (storeNul_nul stored) (Nat.le_add_right hostStart value.length)
          obtain ⟨u, loadedUri⟩ := exists_loadUri (storeNul_keeps stored nul) short
          obtain ⟨next, printed, prepared⟩ := printKey_eq memory holds'' loadedHost loadedUri
          simp only [done, access_some, ok_bind, printed, loadedHost, loadedUri]
          exact .ok prepared

/-- Where the text runs out, the parser reads outside. -/
theorem parseRequest_of_runsOut (runsOut : RunsOut text) : parseRequest text = .error .fault := by
  obtain ⟨full, line, front, rest, split, first, unended⟩ := runsOut
  have behind : line.headers.drop (front.length + 5) = rest := by
    rw [split, drop_host]
  have found := findHostHeader_of_first first
  rw [behind] at found
  have below := findHostHeader_inside found
  have start := headersStart_le line
  have size := line.length_stored
  have headers := congrArg List.length line.drop_stored
  rw [List.length_drop] at headers
  generalize (rest.takeWhile fun c => c == space || c == tab).length = blanks at found below
  obtain ⟨hostStart, place⟩ : ∃ hostStart,
      hostStart = line.stored.headersStart + (front.length + 5 + blanks) := ⟨_, rfl⟩
  have value : (line.stored.buf.drop hostStart).takeWhile (fun c => c != cr && c != lf) =
      line.stored.buf.drop hostStart := by
    apply List.takeWhile_eq_self_iff.mpr
    intro c member
    rw [place, ← List.drop_drop, line.drop_stored, ← List.drop_drop, behind] at member
    simpa using unended c (List.mem_of_mem_drop member)
  have failed : storeNul bufSize line.stored.buf
      (hostStart + (line.stored.buf.drop hostStart).length) = none := by
    unfold storeNul
    rw [List.length_drop, if_neg (by omega), if_neg (by omega)]
  have target : loadString line.stored.buf line.stored.path = _ :=
    loadString_target line.noNul (Nat.zero_le _)
  unfold parseRequest
  rw [line.splitRequestLine, ok_bind, target, access_some, ok_bind, line.drop_stored, found,
    require_some, ok_bind]
  simp only [← place, value, failed]
  rfl

/-- The parser faults on a text that fits into `buf` exactly where that text runs out. -/
theorem parseRequest_fault_iff (fits : text.length ≤ bufSize) :
    parseRequest text = .error .fault ↔ RunsOut text := by
  constructor
  · intro fault
    -- any memory will do that holds the text
    have size : (text ++ List.replicate (bufSize - text.length) 0).length = bufSize := by
      rw [List.length_append, List.length_replicate]
      omega
    let memory : Memory :=
      { buf := ⟨text ++ List.replicate (bufSize - text.length) 0, size⟩
        host := ⟨List.replicate hostSize 0, List.length_replicate⟩
        key := ⟨List.replicate keySize 0, List.length_replicate⟩ }
    have agree : Agree (RunsOut text) Prepared (parse memory text.length) (parseRequest text) :=
      parse_agrees ⟨_, rfl⟩
    rw [fault] at agree
    generalize parse memory text.length = parsed at agree
    cases agree with
    | fault runsOut => exact runsOut
  · exact parseRequest_of_runsOut

/-! ## The handler -/

/-- The loop that fills `buf` is where it is on the text. -/
inductive Tracks : Outcome → Receive → Prop
  | reading {memory : Memory} {text : List UInt8} : memory.buf.Holds text →
      Tracks (.reading memory text.length) (.reading text)
  | received {memory : Memory} {text : List UInt8} : memory.buf.Holds text →
      Tracks (.received memory text.length) (.received text)
  | rejected (why : Reject) : Tracks (.stopped (.rejected why)) (.rejected why)

/-- A `recv` into the array is one into the text. -/
theorem receive_tracks {memory : Memory} (holds : memory.buf.Holds text) (answer : RecvAnswer) :
    Option.Rel Tracks (receive memory text.length answer) (Proxy.receive text answer) := by
  cases answer with
  | interrupted => exact .some (.reading holds)
  | closed => exact .some (.rejected .closedBeforeHeaders)
  | reset => exact .some (.rejected .recvFailed)
  | failed => exact .some (.rejected .recvFailed)
  | bytes received =>
      unfold receive Proxy.receive
      dsimp only
      by_cases fits : 0 < received.length ∧ received.length ≤ bufSize - text.length
      · rw [if_pos fits, if_pos fits]
        have room : text.length + received.length ≤ bufSize := by
          have := holds.length_le
          omega
        obtain ⟨buf, stored, holds'⟩ := holds.storeBlock received room
        have search := memmemSimple_eq (ascii "\r\n\r\n") holds' (Nat.zero_le _)
        rw [Nat.sub_zero, List.drop_zero] at search
        rw [stored, ← List.length_append]
        dsimp only
        rw [search]
        cases found : Proxy.memmemSimple (text ++ received) (ascii "\r\n\r\n") with
        | some i => exact .some (.received holds')
        | none =>
            simp only [Option.map_none, ne_eq, not_true_eq_false, if_false]
            by_cases full : (text ++ received).length = bufSize
            · rw [if_pos full, if_pos full]
              exact .some (.rejected .headersTooLarge)
            · rw [if_neg full, if_neg full]
              exact .some (.reading holds')
      · rw [if_neg fits, if_neg fits]
        exact .none

/-- **The loop that fills `buf`.** -/
theorem receiveAll_tracks {memory : Memory} (holds : memory.buf.Holds text)
    (answers : List RecvAnswer) :
    Option.Rel Tracks (receiveAll memory text.length answers) (Proxy.receiveAll text answers) := by
  induction answers generalizing memory text with
  | nil => exact .some (.reading holds)
  | cons answer answers ih =>
      have tracks := receive_tracks holds answer
      unfold receiveAll Proxy.receiveAll
      generalize receive memory text.length answer = outcome at tracks ⊢
      generalize Proxy.receive text answer = outcome' at tracks ⊢
      cases tracks with
      | none => exact .none
      | some related =>
          cases related with
          | reading holds' => exact ih holds'
          | received holds' =>
              cases answers with
              | nil => exact .some (.received holds')
              | cons answer answers => exact .none
          | rejected why =>
              cases answers with
              | nil => exact .some (.rejected why)
              | cons answer answers => exact .none

/-- `handle_client` leaves an array exactly where the text that it has received runs out. -/
theorem handleClient_fault_iff {memory : Memory} {answers : List RecvAnswer} :
    handleClient memory answers = some (.stopped .fault) ↔
      ∃ text, Proxy.receiveAll [] answers = some (.received text) ∧ RunsOut text := by
  have tracks := receiveAll_tracks (holds_nil memory.buf) answers
  rw [List.length_nil] at tracks
  unfold handleClient
  generalize receiveAll memory 0 answers = outcome at tracks ⊢
  generalize Proxy.receiveAll [] answers = outcome' at tracks ⊢
  cases tracks with
  | none => simp
  | some related =>
      cases related with
      | reading holds => simp
      | rejected why => simp
      | @received memory text holds =>
          have agree := parse_agrees holds
          have same : ∀ text', some (Receive.received text) = some (.received text') ↔
              text = text' := by simp
          simp only [same, exists_eq_left', Option.map_some, Option.some.injEq]
          constructor
          · intro fault
            generalize parse memory text.length = parsed at agree fault
            generalize parseRequest text = parsed' at agree
            cases agree with
            | ok _ => cases fault
            | rejected _ => cases fault
            | fault runsOut => exact runsOut
          · intro runsOut
            rw [parseRequest_of_runsOut runsOut] at agree
            generalize parse memory text.length = parsed at agree ⊢
            cases agree
            rfl

/-- Every byte of `buf`, `host` and `key` that is read or written lies in its array. -/
def InBounds (memory : Memory) (answers : List RecvAnswer) : Prop :=
  handleClient memory answers ≠ some (.stopped .fault)

/-- **Where the parser leaves its arrays.** Whatever the stack holds and however `recv`
answers, all accesses are in bounds unless the text that was received runs out. -/
theorem inBounds_iff (memory : Memory) (answers : List RecvAnswer) :
    InBounds memory answers ↔
      ∀ text, Proxy.receiveAll [] answers = some (.received text) → ¬ RunsOut text := by
  unfold InBounds
  rw [ne_eq, handleClient_fault_iff]
  push Not
  rfl

/-- An empty stack, and a request that fills `buf`: its `Host:` is behind the empty line and
the value runs to the last byte. -/
def blankMemory : Memory where
  buf := ⟨List.replicate bufSize 0, List.length_replicate⟩
  host := ⟨List.replicate hostSize 0, List.length_replicate⟩
  key := ⟨List.replicate keySize 0, List.length_replicate⟩

def fullRequest : List UInt8 :=
  ascii "GET / HTTP/1.0\r\n\r\nHost:" ++ List.replicate (bufSize - 23) 97

theorem fullRequest_runsOut : RunsOut fullRequest := by
  have size : (ascii "GET / HTTP/1.0\r\n\r\nHost:").length = 23 := by decide
  have shape : fullRequest = ascii "GET / HTTP/1.0" ++ cr :: lf :: (ascii "\r\nHost:" ++
      List.replicate (bufSize - 23) 97) := by
    unfold fullRequest
    rw [show ascii "GET / HTTP/1.0\r\n\r\nHost:" = ascii "GET / HTTP/1.0" ++ cr :: lf ::
      ascii "\r\nHost:" by decide, List.append_assoc, List.cons_append, List.cons_append]
  constructor
  · unfold fullRequest
    rw [List.length_append, size, List.length_replicate]
    rfl
  · refine ⟨{ target := ascii "/"
              version := ascii "HTTP/1.0"
              headers := ascii "\r\nHost:" ++ List.replicate (bufSize - 23) 97
              text := ?_, lineEnd := ?_, noSpace := by decide, noNul := by decide },
      ascii "\r\n", List.replicate (bufSize - 23) 97, ?_, ?_, ?_⟩
    · rw [shape]
      rfl
    · rw [shape]
      exact firstAt_crlf_iff.mpr (by decide)
    · rfl
    · refine ⟨⟨List.replicate (bufSize - 23) 97, rfl⟩, fun j below ⟨rest, text⟩ => ?_⟩
      have head : ∀ c ∈ (ascii "Host:" ++ rest).head?, c = 72 := by
        rintro c ⟨⟩
        rfl
      rw [text] at head
      rw [length_crlf] at below
      obtain rfl | rfl : j = 0 ∨ j = 1 := by omega
      · exact absurd (head cr rfl) (by decide)
      · exact absurd (head lf rfl) (by decide)
    · intro c member
      obtain rfl := List.eq_of_mem_replicate member
      decide

/-- `fullRequest` arrives in one piece. -/
theorem fullRequest_received :
    Proxy.receiveAll [] [.bytes fullRequest] = some (.received fullRequest) := by
  have size := fullRequest_runsOut.1
  obtain ⟨i, first⟩ : ∃ i, FirstAt (ascii "\r\n\r\n") fullRequest i := by
    have shape : ascii "GET / HTTP/1.0\r\n\r\nHost:" =
        ascii "GET / HTTP/1.0" ++ (ascii "\r\n\r\n" ++ ascii "Host:") := by decide
    unfold fullRequest
    rw [shape, List.append_assoc, List.append_assoc]
    exact exists_firstAt
  have found := blank_eq_some_iff.mpr first
  have step : Proxy.receive [] (.bytes fullRequest) = some (.received fullRequest) := by
    unfold Proxy.receive
    dsimp only
    rw [if_pos ⟨by rw [size]; decide, by rw [size]; decide⟩, List.nil_append, found]
    rfl
  unfold Proxy.receiveAll
  rw [step]
  rfl

/-- A request for which a NUL is stored behind the end of `buf`. -/
theorem nul_behind_buf : ¬ InBounds blankMemory [.bytes fullRequest] := by
  apply not_not_intro
  apply handleClient_fault_iff.mpr
  exact ⟨fullRequest, fullRequest_received, fullRequest_runsOut⟩

end Buffers

end OperationSystems.Proxy
