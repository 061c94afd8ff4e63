import OperationSystems.Foundation.CStrings

/-!
# Arrays of C, one access at a time

A `char` array is a list of bytes of a fixed length, and a pointer into it is what lies
from there on. An access outside the array is a fault (`none`). The loops of the string
functions load one byte after the other: what their recursion passes is what they read.
Where a list of bytes is known to lie at the front of an array, they find what the
functions on strings find.
-/

namespace CArrays

open CStrings

/-! ## Loops over bytes -/

/-- `while (go(*p)) p++`: how far the pointer gets. -/
def scan (go : UInt8 → Bool) : List UInt8 → Option ℕ
  | [] => none
  | c :: rest => if go c then (scan go rest).map (· + 1) else some 0

/-- `while (p < end && go(*p)) p++`, so many bytes in front of `end`. -/
def scanBelow (go : UInt8 → Bool) : ℕ → List UInt8 → Option ℕ
  | 0, _ => some 0
  | _ + 1, [] => none
  | left + 1, c :: rest => if go c then (scanBelow go left rest).map (· + 1) else some 0

/-- `strlen`. -/
def strlen : List UInt8 → Option ℕ := scan (· != 0)

/-- `strchr`. -/
def strchr (c : UInt8) : List UInt8 → Option (Option ℕ)
  | [] => none
  | b :: rest =>
      if b = c then some (some 0)
      else if b = 0 then some none
      else (strchr c rest).map fun found => found.map (· + 1)

/-- `strcmp(s, t) == 0`. -/
def strcmp : List UInt8 → List UInt8 → Option Bool
  | c :: s, d :: t => if c ≠ d then some false else if c = 0 then some true else strcmp s t
  | _, _ => none

/-- `strncmp(s, t, n) == 0`. -/
def strncmp : ℕ → List UInt8 → List UInt8 → Option Bool
  | 0, _, _ => some true
  | n + 1, c :: s, d :: t =>
      if c ≠ d then some false else if c = 0 then some true else strncmp n s t
  | _ + 1, _, _ => none

variable {go : UInt8 → Bool} {front back rest : List UInt8} {c : UInt8}

/-- A scan ends at the first byte that stops it. -/
theorem scan_append (passes : ∀ b ∈ front, go b = true) (stops : go c = false) :
    scan go (front ++ c :: back) = some front.length := by
  induction front with
  | nil => simp [scan, stops]
  | cons b front ih =>
      rw [List.cons_append, scan, if_pos (passes b List.mem_cons_self),
        ih fun d member => passes d (List.mem_cons_of_mem _ member)]
      rfl

/-- A bounded scan inside memory counts the bytes that pass in front. -/
theorem scanBelow_eq {left : ℕ} {mem : List UInt8} (inside : left ≤ mem.length) :
    scanBelow go left mem = some ((mem.take left).takeWhile go).length := by
  induction left generalizing mem with
  | zero => rfl
  | succ left ih =>
      cases mem with
      | nil => cases inside
      | cons c mem =>
          rw [scanBelow, List.take_succ_cons]
          by_cases goes : go c = true
          · rw [if_pos goes, List.takeWhile_cons_of_pos goes, ih (Nat.le_of_succ_le_succ inside)]
            rfl
          · rw [if_neg goes, List.takeWhile_cons_of_neg goes]
            rfl

/-- `strlen` of a string that ends in memory. -/
theorem strlen_string (s : CString) : strlen (s.bytes ++ 0 :: rest) = some s.bytes.length := by
  apply scan_append
  · intro b member
    have other : b ≠ 0 := fun same => s.noNul (same ▸ member)
    simpa using other
  · rfl

/-- `strchr` for a byte other than the terminator. -/
theorem strchr_string (s : CString) (other : c ≠ 0) :
    strchr c (s.bytes ++ 0 :: rest) = some (CStrings.strchr s c) := by
  obtain ⟨bytes, noNul⟩ := s
  unfold CStrings.strchr
  induction bytes with
  | nil =>
      simp only [List.nil_append, strchr, if_neg (Ne.symm other), ↓reduceIte]
      rfl
  | cons b bytes ih =>
      have nul : b ≠ 0 := fun same => noNul (same ▸ List.mem_cons_self)
      rw [List.cons_append, strchr, List.idxOf?_cons]
      by_cases same : b = c
      · simp [same]
      · rw [if_neg same, if_neg nul, ih fun member => noNul (List.mem_cons_of_mem _ member)]
        simp [same]

/-- Comparing with a literal. -/
theorem strcmp_string (literal rest : List UInt8) (plain : 0 ∉ literal) (s : CString) :
    strcmp (literal ++ [0]) (s.bytes ++ 0 :: rest) = some (decide (s.bytes = literal)) := by
  obtain ⟨bytes, noNul⟩ := s
  induction literal generalizing bytes with
  | nil =>
      cases bytes with
      | nil => simp [strcmp]
      | cons b bytes =>
          have nul : 0 ≠ b := fun same => noNul (same ▸ List.mem_cons_self)
          simp [strcmp, nul]
  | cons c literal ih =>
      have nul : c ≠ 0 := fun same => plain (same ▸ List.mem_cons_self)
      cases bytes with
      | nil => simp [strcmp, nul]
      | cons b bytes =>
          have later := ih (fun member => plain (List.mem_cons_of_mem _ member)) bytes
            fun member => noNul (List.mem_cons_of_mem _ member)
          by_cases same : c = b
          · subst same
            simpa [strcmp, nul] using later
          · simp [strcmp, same, Ne.symm same]

/-- Comparing the front of a string with a literal. -/
theorem strncmp_string (literal rest : List UInt8) (plain : 0 ∉ literal) (s : CString) :
    strncmp literal.length (s.bytes ++ 0 :: rest) (literal ++ [0]) =
      some (literal.isPrefixOf s.bytes) := by
  obtain ⟨bytes, noNul⟩ := s
  induction literal generalizing bytes with
  | nil => simp [strncmp]
  | cons c literal ih =>
      have nul : c ≠ 0 := fun same => plain (same ▸ List.mem_cons_self)
      cases bytes with
      | nil => simp [strncmp, Ne.symm nul]
      | cons b bytes =>
          have later := ih (fun member => plain (List.mem_cons_of_mem _ member)) bytes
            fun member => noNul (List.mem_cons_of_mem _ member)
          by_cases same : b = c
          · subst same
            simpa [strncmp, nul] using later
          · simp [strncmp, same, List.isPrefixOf, Ne.symm same]

/-! ## Arrays -/

/-- `char a[size]`. -/
structure CArray (size : ℕ) where
  bytes : List UInt8
  length_bytes : bytes.length = size

namespace CArray

variable {size i n : ℕ} {a next : CArray size} {text : List UInt8}

def load (a : CArray size) (i : ℕ) : Option UInt8 := a.bytes[i]?

def store (a : CArray size) (i : ℕ) (c : UInt8) : Option (CArray size) :=
  if i < size then some ⟨a.bytes.set i c, (List.length_set).trans a.length_bytes⟩ else none

/-- The pointer `a + i`. -/
def pointer (a : CArray size) (i : ℕ) : List UInt8 := a.bytes.drop i

/-- What `memcmp` and `memcpy` read. -/
def loadBlock (a : CArray size) (i n : ℕ) : Option (List UInt8) :=
  if i + n ≤ size then some ((a.bytes.drop i).take n) else none

/-- What `memcpy` and `recv` write. -/
def storeBlock (a : CArray size) (i : ℕ) (block : List UInt8) : Option (CArray size) :=
  if inside : i + block.length ≤ size then
    some ⟨a.bytes.take i ++ block ++ a.bytes.drop (i + block.length), by
      have := a.length_bytes
      simp only [List.length_append, List.length_take, List.length_drop]
      omega⟩
  else none

/-- The bytes `text` lie at the front. -/
def Holds (a : CArray size) (text : List UInt8) : Prop := text <+: a.bytes

/-- The text fits into the array. -/
theorem Holds.length_le (holds : a.Holds text) : text.length ≤ size :=
  a.length_bytes ▸ List.IsPrefix.length_le holds

/-- What a pointer into the array sees begins with the rest of the text. -/
theorem Holds.pointer (holds : a.Holds text) (inside : i ≤ text.length) :
    text.drop i <+: a.pointer i := by
  obtain ⟨more, whole⟩ := holds
  refine ⟨more, ?_⟩
  rw [CArray.pointer, ← whole, List.drop_append_of_le_length inside]

/-- The block behind `i`, to the end of what is known. -/
theorem Holds.take (holds : a.Holds text) (inside : i ≤ text.length) :
    (a.pointer i).take (text.length - i) = text.drop i := by
  obtain ⟨more, whole⟩ := holds.pointer inside
  rw [← whole, ← List.length_drop, List.take_left]

/-- A string that is known to be there. -/
theorem Holds.string {s : CString} (holds : a.Holds text) (loaded : loadString text i = some s) :
    ∃ rest, a.pointer i = s.bytes ++ 0 :: rest := by
  obtain ⟨rest, behind⟩ := loadString_eq_some_iff.mp loaded
  have inside : i ≤ text.length := by
    by_contra outside
    have size := congrArg List.length behind
    rw [List.drop_eq_nil_of_le (not_le.mp outside).le, List.length_append] at size
    cases size
  obtain ⟨more, whole⟩ := holds.pointer inside
  refine ⟨rest ++ more, ?_⟩
  rw [← whole, behind, List.append_assoc, List.cons_append]

/-- `strchr` in the array is `strchr` on the string in its text. -/
theorem Holds.strchr {s : CString} {c : UInt8} (holds : a.Holds text)
    (loaded : loadString text i = some s) (other : c ≠ 0) :
    CArrays.strchr c (a.pointer i) = some (CStrings.strchr s c) := by
  obtain ⟨rest, behind⟩ := holds.string loaded
  rw [behind, strchr_string s other]

theorem Holds.strlen {s : CString} (holds : a.Holds text) (loaded : loadString text i = some s) :
    CArrays.strlen (a.pointer i) = some s.bytes.length := by
  obtain ⟨rest, behind⟩ := holds.string loaded
  rw [behind, strlen_string]

/-- A string of the text is a string of the array. -/
theorem Holds.loadString {s : CString} (holds : a.Holds text)
    (loaded : loadString text i = some s) : loadString a.bytes i = some s := by
  obtain ⟨rest, behind⟩ := holds.string loaded
  exact loadString_eq_some_iff.mpr ⟨rest, behind⟩

/-- Storing a NUL into what is known or right behind it. -/
theorem Holds.storeNul {text' : List UInt8} (holds : a.Holds text)
    (stored : storeNul size text i = some text') :
    ∃ next, a.store i 0 = some next ∧ next.Holds text' := by
  obtain ⟨more, whole⟩ := holds
  have size' := a.length_bytes
  rw [← whole, List.length_append] at size'
  unfold CStrings.storeNul at stored
  split_ifs at stored with inside behind
  · obtain rfl := Option.some.inj stored
    refine ⟨_, if_pos (by omega), more, ?_⟩
    change text.set i 0 ++ more = a.bytes.set i 0
    rw [← whole, List.set_append_left _ _ inside]
  · obtain rfl := Option.some.inj stored
    refine ⟨_, if_pos behind.2, more.tail, ?_⟩
    obtain ⟨rfl, room⟩ := behind
    cases more with
    | nil =>
        rw [List.length_nil] at size'
        omega
    | cons c more => simp [← whole]

/-- A terminator that does not fit is a store outside the array. -/
theorem Holds.storeNul_none (holds : a.Holds text) (inside : i ≤ text.length)
    (failed : CStrings.storeNul size text i = none) : a.store i 0 = none := by
  have below := holds.length_le
  unfold CStrings.storeNul at failed
  split_ifs at failed with before behind
  exact if_neg (by omega)

/-- A block inside the array is what the pointer sees. -/
theorem loadBlock_eq (inside : i + n ≤ size) : a.loadBlock i n = some ((a.pointer i).take n) :=
  if_pos inside

/-- A byte written right behind what is known. -/
theorem Holds.push (c : UInt8) (holds : a.Holds text) (inside : text.length < size) :
    ∃ next, a.store text.length c = some next ∧ next.Holds (text ++ [c]) := by
  obtain ⟨more, whole⟩ := holds
  refine ⟨_, if_pos inside, more.tail, ?_⟩
  cases more with
  | nil =>
      have full := congrArg List.length whole
      rw [List.append_nil, a.length_bytes] at full
      omega
  | cons b more => simp [← whole]

/-- A block written right behind what is known. -/
theorem Holds.storeBlock (block : List UInt8) (holds : a.Holds text)
    (inside : text.length + block.length ≤ size) :
    ∃ next, a.storeBlock text.length block = some next ∧ next.Holds (text ++ block) := by
  obtain ⟨more, whole⟩ := holds
  refine ⟨_, dif_pos inside, a.bytes.drop (text.length + block.length), ?_⟩
  simp only [← whole, List.take_left]

end CArray

end CArrays
