import Mathlib.Data.List.Basic
import Mathlib.Data.List.TakeWhile
import Mathlib.Order.Nat

/-!
# Strings and character arrays of C

A NUL-terminated string is its bytes before the NUL. A character array that is
filled from the front is the list of the bytes written so far; reading a string
that does not end among them, and storing beyond the array, is a fault (`none`).
The searches are described by where they first succeed, so that what a parser
accepts can be read as an equation between texts.
-/

namespace CStrings

/-- A NUL-terminated string: its bytes before the NUL. -/
structure CString where
  bytes : List UInt8
  noNul : 0 ∉ bytes
  deriving DecidableEq

theorem CString.ext_bytes {s u : CString} (same : s.bytes = u.bytes) : s = u := by
  cases s
  cases u
  cases same
  rfl

/-- A part of a string is a string. -/
def CString.part (s : CString) (bytes : List UInt8) (inside : bytes ⊆ s.bytes) : CString :=
  ⟨bytes, fun member => s.noNul (inside member)⟩

/-- The bytes of a string literal. -/
def ascii (s : String) : List UInt8 := s.toList.map fun c => c.toNat.toUInt8

/-! ## Loads and stores -/

/-- The string that starts at an index of the array. -/
def loadString (buf : List UInt8) (start : Nat) : Option CString :=
  if 0 ∈ buf.drop start then
    some ⟨(buf.drop start).takeWhile (· != 0), fun member => by
      simpa using List.mem_takeWhile_imp member⟩
  else none

/-- Store a NUL at an index of an array of the given capacity, inside what was
written or right behind it. -/
def storeNul (capacity : Nat) (buf : List UInt8) (i : Nat) : Option (List UInt8) :=
  if i < buf.length then some (buf.set i 0)
  else if i = buf.length ∧ i < capacity then some (buf ++ [0])
  else none

/-- What lies in front of the first terminator. -/
theorem takeWhile_ne_append {s rest : List UInt8} (noNul : 0 ∉ s) :
    (s ++ 0 :: rest).takeWhile (· != 0) = s := by
  rw [List.takeWhile_append_of_pos]
  · simp
  · intro c member
    have other : c ≠ 0 := fun same => noNul (same ▸ member)
    simpa using other

/-- A string can be loaded where its bytes and a terminator lie. -/
theorem loadString_eq_some_iff {buf : List UInt8} {start : Nat} {s : CString} :
    loadString buf start = some s ↔ ∃ rest, buf.drop start = s.bytes ++ 0 :: rest := by
  unfold loadString
  constructor
  · intro loaded
    split_ifs at loaded with found
    obtain rfl := Option.some.inj loaded
    obtain ⟨front, rest, text, noNul⟩ := List.eq_append_cons_of_mem found
    refine ⟨rest, ?_⟩
    simp only [text, takeWhile_ne_append noNul]
  · rintro ⟨rest, text⟩
    rw [if_pos (by rw [text]; simp)]
    refine congrArg some (CString.ext_bytes ?_)
    simp only [text]
    exact takeWhile_ne_append s.noNul

/-- A string whose bytes are known up to some byte. -/
theorem loadString_through {buf front back : List UInt8} {start : Nat} {c : UInt8}
    (noNul : 0 ∉ front) (other : c ≠ 0) (ends : 0 ∈ back)
    (text : buf.drop start = front ++ c :: back) :
    ∃ s tail, loadString buf start = some s ∧ s.bytes = front ++ c :: tail := by
  obtain ⟨tail, rest, split, clean⟩ := List.eq_append_cons_of_mem ends
  have plain : 0 ∉ front ++ c :: tail := by
    simp [noNul, clean, other.symm]
  refine ⟨⟨front ++ c :: tail, plain⟩, tail, loadString_eq_some_iff.mpr ⟨rest, ?_⟩, rfl⟩
  rw [text, split]
  simp

/-- A string ends at the latest at the next NUL. -/
theorem prefix_of_eq_append_nul {s front back rest : List UInt8} (noNul : 0 ∉ s)
    (text : front ++ 0 :: back = s ++ 0 :: rest) : s <+: front := by
  rcases List.append_eq_append_iff.mp text with ⟨more, left, right⟩ | ⟨more, left, right⟩
  · cases more with
    | nil => exact ⟨[], by simpa using left⟩
    | cons c more =>
        obtain rfl : 0 = c := (List.cons.inj right).1
        exact absurd (by rw [left]; simp) noNul
  · exact ⟨more, left.symm⟩

/-- Storing a NUL over a byte that was written. -/
theorem storeNul_inside (capacity : Nat) (front back : List UInt8) (c : UInt8) :
    storeNul capacity (front ++ c :: back) front.length = some (front ++ 0 :: back) := by
  unfold storeNul
  rw [if_pos (by simp)]
  simp

/-- Storing a NUL between two parts, the second of which may be empty. -/
theorem storeNul_append {capacity : Nat} {front back next : List UInt8} :
    storeNul capacity (front ++ back) front.length = some next ↔
      (back = [] → front.length < capacity) ∧ next = front ++ 0 :: back.tail := by
  cases back with
  | nil =>
      unfold storeNul
      by_cases room : front.length < capacity
      · simp [room, eq_comm]
      · simp [room]
  | cons c back =>
      rw [storeNul_inside]
      simp [eq_comm]

/-! ## Searches -/

/-- `strchr`. -/
def strchr (s : CString) (c : UInt8) : Option Nat := s.bytes.idxOf? c

/-- `strchr` finds the first place of a byte. -/
theorem strchr_eq_some_iff {s : CString} {c : UInt8} {i : Nat} :
    strchr s c = some i ↔ ∃ front back, s.bytes = front ++ c :: back ∧ c ∉ front ∧
      front.length = i := by
  unfold strchr
  rw [List.idxOf?_eq_some_iff]
  constructor
  · rintro ⟨below, here, before⟩
    refine ⟨s.bytes.take i, s.bytes.drop (i + 1), ?_, ?_, List.length_take_of_le below.le⟩
    · rw [← here, List.getElem_cons_drop, List.take_append_drop]
    · intro member
      obtain ⟨j, inside, same⟩ := List.mem_iff_getElem.mp member
      rw [List.getElem_take] at same
      exact before j (lt_of_lt_of_le inside (List.length_take_le _ _)) same
  · rintro ⟨front, back, text, absent, rfl⟩
    refine ⟨by simp [text], by simp [text], fun j below same => absent ?_⟩
    simp only [text, List.getElem_append_left below] at same
    exact same ▸ List.getElem_mem below

/-- The first place where a text occurs. -/
structure FirstAt (needle haystack : List UInt8) (i : Nat) : Prop where
  here : needle <+: haystack.drop i
  before : ∀ j < i, ¬ needle <+: haystack.drop j

/-- There is one first place. -/
theorem FirstAt.unique {needle haystack : List UInt8} {i j : Nat}
    (first : FirstAt needle haystack i) (other : FirstAt needle haystack j) : i = j := by
  obtain less | same | more := lt_trichotomy i j
  · exact absurd first.here (other.before i less)
  · exact same
  · exact absurd other.here (first.before j more)

/-- The text before and after the first occurrence. -/
theorem FirstAt.split {needle haystack : List UInt8} {i : Nat} (positive : needle ≠ [])
    (first : FirstAt needle haystack i) :
    ∃ front back, haystack = front ++ (needle ++ back) ∧ front.length = i := by
  obtain ⟨back, text⟩ := first.here
  have below : i ≤ haystack.length := by
    by_contra outside
    rw [List.drop_eq_nil_of_le (not_le.mp outside).le] at text
    exact positive (List.append_eq_nil_iff.mp text).1
  exact ⟨haystack.take i, back, by rw [text, List.take_append_drop],
    List.length_take_of_le below⟩

/-- A text that occurs has a first occurrence. -/
theorem exists_firstAt {needle front back : List UInt8} :
    ∃ i, FirstAt needle (front ++ (needle ++ back)) i := by
  classical
  have found : ∃ i, needle <+: (front ++ (needle ++ back)).drop i :=
    ⟨front.length, back, by rw [List.drop_left]⟩
  exact ⟨Nat.find found, Nat.find_spec found, fun j less => Nat.find_min found less⟩

/-- The first place is 0 exactly for a prefix. -/
theorem firstAt_zero_iff {needle haystack : List UInt8} :
    FirstAt needle haystack 0 ↔ needle <+: haystack :=
  ⟨fun first => first.here, fun here => ⟨here, fun _ less => absurd less (Nat.not_lt_zero _)⟩⟩

/-- A first place further on is one in the rest, if there is none here. -/
theorem firstAt_succ_iff {needle rest : List UInt8} {c : UInt8} {i : Nat} :
    FirstAt needle (c :: rest) (i + 1) ↔ ¬ needle <+: c :: rest ∧ FirstAt needle rest i := by
  constructor
  · rintro ⟨here, before⟩
    refine ⟨before 0 (Nat.succ_pos i), here, fun j less => ?_⟩
    exact before (j + 1) (Nat.succ_lt_succ less)
  · rintro ⟨absent, here, before⟩
    refine ⟨here, fun j less => ?_⟩
    cases j with
    | zero => exact absent
    | succ j => exact before j (Nat.lt_of_succ_lt_succ less)

/-- The text in front of and behind the first occurrence, if there is one. -/
def cut (needle : List UInt8) : List UInt8 → Option (List UInt8 × List UInt8)
  | [] => if needle = [] then some ([], []) else none
  | c :: rest =>
      if needle.isPrefixOf (c :: rest) then some ([], (c :: rest).drop needle.length)
      else (cut needle rest).map fun (front, back) => (c :: front, back)

/-- A cut is made at the first place. -/
theorem cut_eq_some_iff {needle haystack front back : List UInt8} :
    cut needle haystack = some (front, back) ↔
      haystack = front ++ (needle ++ back) ∧ FirstAt needle haystack front.length := by
  induction haystack generalizing front with
  | nil =>
      unfold cut
      split_ifs with empty
      · subst empty
        constructor
        · rintro ⟨⟩
          exact ⟨rfl, firstAt_zero_iff.mpr (List.prefix_rfl)⟩
        · rintro ⟨text, _⟩
          obtain ⟨rfl, more⟩ := List.append_eq_nil_iff.mp text.symm
          obtain ⟨_, rfl⟩ := List.append_eq_nil_iff.mp more
          rfl
      · refine iff_of_false nofun fun ⟨text, _⟩ => empty ?_
        exact (List.append_eq_nil_iff.mp (List.append_eq_nil_iff.mp text.symm).2).1
  | cons c rest ih =>
      unfold cut
      by_cases here : needle <+: c :: rest
      · rw [if_pos (List.isPrefixOf_iff_prefix.mpr here)]
        obtain ⟨tail, text⟩ := here
        have behind : (c :: rest).drop needle.length = tail := by rw [← text, List.drop_left]
        rw [behind]
        constructor
        · rintro ⟨⟩
          exact ⟨text.symm, firstAt_zero_iff.mpr ⟨back, text⟩⟩
        · rintro ⟨split, first⟩
          have start := first.unique (firstAt_zero_iff.mpr ⟨tail, text⟩)
          obtain rfl := List.length_eq_zero_iff.mp start
          rw [← text, List.nil_append] at split
          rw [List.append_cancel_left split]
      · rw [if_neg (fun found => here (List.isPrefixOf_iff_prefix.mp found)),
          Option.map_eq_some_iff]
        constructor
        · rintro ⟨⟨before, after⟩, found, same⟩
          obtain ⟨rfl, rfl⟩ := Prod.mk.inj same
          obtain ⟨split, first⟩ := ih.mp found
          exact ⟨congrArg (List.cons c) split, firstAt_succ_iff.mpr ⟨here, first⟩⟩
        · rintro ⟨split, first⟩
          cases front with
          | nil => exact absurd ⟨back, split.symm⟩ here
          | cons d before =>
              obtain ⟨rfl, tail⟩ := List.cons.inj split
              exact ⟨(before, back), ih.mpr ⟨tail, (firstAt_succ_iff.mp first).2⟩, rfl⟩

/-- No cut is made where there is no place. -/
theorem cut_eq_none_iff {needle haystack : List UInt8} :
    cut needle haystack = none ↔ ∀ i, ¬ FirstAt needle haystack i := by
  induction haystack with
  | nil =>
      unfold cut
      split_ifs with empty
      · subst empty
        exact iff_of_false nofun fun none => none 0 (firstAt_zero_iff.mpr List.prefix_rfl)
      · refine iff_of_true rfl fun i first => empty ?_
        have found := first.here
        rw [List.drop_nil] at found
        exact List.prefix_nil.mp found
  | cons c rest ih =>
      unfold cut
      by_cases here : needle <+: c :: rest
      · rw [if_pos (List.isPrefixOf_iff_prefix.mpr here)]
        exact iff_of_false nofun fun none => none 0 (firstAt_zero_iff.mpr here)
      · rw [if_neg (fun found => here (List.isPrefixOf_iff_prefix.mp found)),
          Option.map_eq_none_iff, ih]
        constructor
        · intro none i first
          cases i with
          | zero => exact here (firstAt_zero_iff.mp first)
          | succ i => exact none i (firstAt_succ_iff.mp first).2
        · exact fun none i first => none (i + 1) (firstAt_succ_iff.mpr ⟨here, first⟩)

/-- A single byte has its first occurrence behind bytes that are others. -/
theorem cut_singleton_eq_some_iff {c : UInt8} {text front back : List UInt8} :
    cut [c] text = some (front, back) ↔ text = front ++ c :: back ∧ c ∉ front := by
  rw [cut_eq_some_iff]
  refine and_congr_right fun split => ?_
  subst split
  constructor
  · intro first member
    obtain ⟨before, after, rfl⟩ := List.append_of_mem member
    refine first.before before.length (by simp) ⟨after ++ c :: back, ?_⟩
    simp
  · intro absent
    refine ⟨⟨back, by rw [List.drop_left]⟩, fun j less found => absent ?_⟩
    obtain ⟨after, text⟩ := found
    have there : (front ++ ([c] ++ back))[j]? = some c := by
      rw [← List.head?_drop]
      simp only [List.singleton_append] at text ⊢
      rw [← text]
      rfl
    rw [List.getElem?_append_left less] at there
    exact List.mem_of_getElem? there

/-- There is no cut at a byte that does not occur. -/
theorem cut_singleton_eq_none_iff {c : UInt8} {text : List UInt8} :
    cut [c] text = none ↔ c ∉ text := by
  constructor
  · intro none member
    obtain ⟨front, back, split, absent⟩ := List.eq_append_cons_of_mem member
    have found := cut_singleton_eq_some_iff.mpr ⟨split, absent⟩
    rw [none] at found
    cases found
  · intro absent
    cases found : cut [c] text with
    | none => rfl
    | some parts =>
        obtain ⟨split, _⟩ := cut_singleton_eq_some_iff.mp found
        exact absurd (by simp [split]) absent

/-! ## Texts that grow -/

/-- What is found is found in a longer text as well. -/
theorem prefix_drop_append {needle l : List UInt8} {i : Nat} (found : needle <+: l.drop i)
    (extra : List UInt8) : needle <+: (l ++ extra).drop i := by
  rw [List.drop_append]
  exact found.trans (List.prefix_append _ _)

/-- What occurs in the front of a text. -/
theorem prefix_drop_of_append {needle l extra : List UInt8} {i : Nat}
    (inside : i + needle.length ≤ l.length) (found : needle <+: (l ++ extra).drop i) :
    needle <+: l.drop i := by
  apply List.prefix_of_prefix_length_le found
  · rw [List.drop_append_of_le_length (by omega)]
    exact List.prefix_append _ _
  · rw [List.length_drop]
    omega

/-- A first occurrence stays the first one when the text grows. -/
theorem FirstAt.append {needle l : List UInt8} {i : Nat} (positive : needle ≠ [])
    (first : FirstAt needle l i) (extra : List UInt8) : FirstAt needle (l ++ extra) i := by
  have long := List.length_pos_of_ne_nil positive
  have room := first.here.length_le
  rw [List.length_drop] at room
  refine ⟨prefix_drop_append first.here extra, fun j less found => ?_⟩
  exact first.before j less (prefix_drop_of_append (by omega) found)

/-- A first occurrence inside the front of a text. -/
theorem FirstAt.of_append {needle l extra : List UInt8} {i : Nat}
    (first : FirstAt needle (l ++ extra) i) (inside : i + needle.length ≤ l.length) :
    FirstAt needle l i :=
  ⟨prefix_drop_of_append inside first.here,
    fun j less found => first.before j less (prefix_drop_append found extra)⟩

end CStrings
