import Mathlib.Data.List.Basic
import Mathlib.Data.List.Nodup
import Mathlib.Data.List.Infix
import Mathlib.Logic.Function.Basic
import Mathlib.Logic.Relation

/-!
# Walking a list hand over hand while others reorder it

Threads walk a list from its first node. A walker locks the node directly behind the
ones it holds before it unlocks the first of these, so what it holds is always a
contiguous segment. A walker that holds three nodes, and conflicts with every other
thread, may exchange the second and the third; then it only unlocks.

`Sound` says that conflicting threads hold different nodes and that what a walker has
passed are, in some order, the nodes now in front of it. The order in which nodes are
locked changes with the list, but at any time it is the order of the list at that time:
whoever waits for a node waits behind everything it holds.
-/

namespace HandOverHand

variable {Thread Node : Type*}

/-! ## Places in a list -/

/-- Exchange the elements at positions `i` and `i + 1`. -/
def exchange : ℕ → List Node → List Node
  | 0, a :: b :: rest => b :: a :: rest
  | i + 1, a :: rest => a :: exchange i rest
  | _, rest => rest

theorem exchange_append (front : List Node) (a b : Node) (back : List Node) :
    exchange front.length (front ++ a :: b :: back) = front ++ b :: a :: back := by
  induction front with
  | nil => rfl
  | cons x front ih => exact congrArg (List.cons x) ih

/-- An exchange keeps the elements. -/
theorem exchange_perm (i : ℕ) (list : List Node) : (exchange i list).Perm list := by
  induction list generalizing i with
  | nil => cases i <;> exact .refl _
  | cons a rest ih =>
      cases i with
      | zero =>
          cases rest with
          | nil => exact .refl _
          | cons b rest => exact .swap a b rest
      | succ i => exact (ih i).cons a

/-- `after` is what stands directly behind `x`. -/
def Successor (order : List Node) (x : Node) (after : Option Node) : Prop :=
  ∃ front back, order = front ++ x :: back ∧ back.head? = after

variable {order front back : List Node} {x y a b p : Node} {after other : Option Node}

/-- Every element has a place. -/
theorem exists_successor (member : x ∈ order) : ∃ after, Successor order x after := by
  obtain ⟨front, back, split⟩ := List.append_of_mem member
  exact ⟨back.head?, front, back, split, rfl⟩

/-- In a list without repetitions an element stands at one place only. -/
theorem split_unique {front' back' : List Node} (nodup : order.Nodup)
    (split : order = front ++ x :: back) (split' : order = front' ++ x :: back') :
    front = front' ∧ back = back' := by
  subst split
  induction front generalizing front' with
  | nil =>
      cases front' with
      | nil => simpa using split'
      | cons y front' =>
          obtain ⟨rfl, rest⟩ := List.cons.inj split'
          have absent := (List.nodup_cons.mp nodup).1
          rw [rest] at absent
          simp at absent
  | cons y front ih =>
      have distinct := List.nodup_cons.mp nodup
      cases front' with
      | nil =>
          obtain ⟨rfl, _⟩ := List.cons.inj split'
          exact absurd (by simp) distinct.1
      | cons z front' =>
          obtain ⟨rfl, rest⟩ := List.cons.inj split'
          obtain ⟨rfl, rfl⟩ := ih distinct.2 rest
          exact ⟨rfl, rfl⟩

/-- The successor is what comes next, wherever the list is split. -/
theorem Successor.head_eq (nodup : order.Nodup) (successor : Successor order x after)
    (split : order = front ++ x :: back) : back.head? = after := by
  obtain ⟨front', back', split', rfl⟩ := successor
  rw [(split_unique nodup split split').2]

/-- There is one successor. -/
theorem Successor.unique (nodup : order.Nodup) (first : Successor order x after)
    (second : Successor order x other) : after = other := by
  obtain ⟨front, back, split, rfl⟩ := first
  exact second.head_eq nodup split

theorem Successor.of_append (split : order = front ++ x :: y :: back) :
    Successor order x (some y) :=
  ⟨front, y :: back, split, rfl⟩

/-- Two segments of a list that share no element: one stands before the other. -/
theorem segments_apart {segment front' segment' back' : List Node}
    (same : front ++ segment ++ back = front' ++ segment' ++ back') (some : segment ≠ [])
    (some' : segment' ≠ []) (disjoint : segment.Disjoint segment') :
    (∃ between, front' = front ++ segment ++ between ∧ back = between ++ segment' ++ back') ∨
      (∃ between, front = front' ++ segment' ++ between ∧
        back' = between ++ segment ++ back) := by
  -- a segment that starts inside the other would share its first element
  have starts : ∀ {one two shift rest rest' : List Node}, one ≠ [] → two ≠ [] →
      one.Disjoint two → one ++ rest = shift ++ (two ++ rest') →
      ∃ between, shift = one ++ between ∧ rest = between ++ (two ++ rest') := by
    intro one two shift rest rest' here there apart equal
    obtain ⟨between, left, right⟩ | ⟨between, left, right⟩ := List.append_eq_append_iff.mp equal
    · exact ⟨between, left, right⟩
    · cases between with
      | nil => exact ⟨[], by simpa using left.symm, by simpa using right.symm⟩
      | cons y between =>
          obtain ⟨z, two, rfl⟩ := List.exists_cons_of_ne_nil there
          obtain ⟨rfl, _⟩ := List.cons.inj right
          exact absurd List.mem_cons_self (apart (by simp [left]))
  simp only [List.append_assoc] at same ⊢
  obtain ⟨shift, left, right⟩ | ⟨shift, left, right⟩ := List.append_eq_append_iff.mp same
  · obtain ⟨between, rfl, rest⟩ := starts some some' disjoint right
    exact .inl ⟨between, left, rest⟩
  · obtain ⟨between, rfl, rest⟩ := starts some' some (List.disjoint_symm disjoint) right
    exact .inr ⟨between, left, rest⟩

/-- An exchange changes what follows the three nodes at it, and nothing else. -/
theorem Successor.exchange (successor : Successor order x after)
    (split : order = front ++ p :: a :: b :: back) (apart : x ∉ [p, a, b]) :
    Successor (front ++ p :: b :: a :: back) x after := by
  obtain ⟨front', back', split', rfl⟩ := successor
  have same : front' ++ [x] ++ back' = front ++ [p, a, b] ++ back := by
    simpa using split'.symm.trans split
  obtain ⟨between, rfl, rfl⟩ | ⟨between, rfl, rfl⟩ :=
    segments_apart same (List.cons_ne_nil _ _) (List.cons_ne_nil _ _)
      (List.singleton_disjoint.mpr apart)
  · exact ⟨front', between ++ p :: b :: a :: back, by simp, by simp⟩
  · exact ⟨front ++ p :: b :: a :: between, back', by simp, rfl⟩

/-! ## The walkers -/

/-- The list as it is, what each thread holds, the nodes it has locked since it last
held none, and whether it is on its way along the list. -/
structure State (Thread Node : Type*) where
  order : List Node
  held : Thread → List Node
  walked : Thread → List Node
  walking : Thread → Bool

variable {conflict : Thread → Thread → Prop}

/-- No thread that conflicts with this one holds the node. -/
def Free (conflict : Thread → Thread → Prop) (s : State Thread Node) (t : Thread) (x : Node) :
    Prop :=
  ∀ u, u ≠ t → conflict t u → x ∉ s.held u

/-- One act of one thread. -/
inductive Move [DecidableEq Thread] (conflict : Thread → Thread → Prop) :
    State Thread Node → State Thread Node → Prop
  | enter {s : State Thread Node} (t : Thread) (x : Node) (rest : List Node) :
      s.held t = [] → s.order = x :: rest → Free conflict s t x →
      Move conflict s { s with
        held := Function.update s.held t [x]
        walked := Function.update s.walked t [x]
        walking := Function.update s.walking t true }
  | advance {s : State Thread Node} (t : Thread) (x y : Node) (before : List Node) :
      s.walking t = true → s.held t = before ++ [y] → Successor s.order y (some x) →
      Free conflict s t x →
      Move conflict s { s with
        held := Function.update s.held t (s.held t ++ [x])
        walked := Function.update s.walked t (s.walked t ++ [x]) }
  | drop {s : State Thread Node} (t : Thread) (x : Node) (rest : List Node) :
      s.walking t = true → s.held t = x :: rest → rest ≠ [] →
      Move conflict s { s with held := Function.update s.held t rest }
  | leave {s : State Thread Node} (t : Thread) (rest : List Node) :
      rest.Sublist (s.held t) →
      Move conflict s { s with
        held := Function.update s.held t rest
        walking := Function.update s.walking t false }
  | exchange {s : State Thread Node} (t : Thread) (p a b : Node) (front back : List Node) :
      s.walking t = true → s.held t = [p, a, b] → (∀ u, conflict u t) →
      s.order = front ++ p :: a :: b :: back →
      Move conflict s { s with
        order := front ++ p :: b :: a :: back
        walking := Function.update s.walking t false }

/-- What a thread holds are consecutive nodes, and what it has walked past are the nodes
in front of them in some order. -/
def Underway (order held walked : List Node) : Prop :=
  held ≠ [] ∧ ∃ front back behind,
    order = front ++ held ++ back ∧ walked = behind ++ held ∧ behind.Perm front

/-- The invariant. -/
structure Sound (conflict : Thread → Thread → Prop) (s : State Thread Node) : Prop where
  nodup : s.order.Nodup
  apart : ∀ t u, t ≠ u → conflict t u → (s.held t).Disjoint (s.held u)
  distinct : ∀ t, (s.held t).Nodup
  underway : ∀ t, s.walking t = true → Underway s.order (s.held t) (s.walked t)

variable {s next : State Thread Node} {t u : Thread} {held walked : List Node}

/-- Of a walker that reads what follows the last node it holds. -/
theorem Underway.ahead (underway : Underway order held walked) (nodup : order.Nodup)
    {before : List Node} (last : held = before ++ [y]) (successor : Successor order y after) :
    ∃ front back behind, order = front ++ held ++ back ∧ walked = behind ++ held ∧
      behind.Perm front ∧ back.head? = after := by
  obtain ⟨_, front, back, behind, split, passed, perm⟩ := underway
  have place : order = (front ++ before) ++ y :: back := by
    rw [split, last]
    simp
  exact ⟨front, back, behind, split, passed, perm, successor.head_eq nodup place⟩

/-- A walker at the last node has passed all others. -/
theorem Underway.perm (underway : Underway order held walked) (nodup : order.Nodup)
    {before : List Node} (last : held = before ++ [y]) (successor : Successor order y none) :
    walked.Perm order := by
  obtain ⟨front, back, behind, split, passed, perm, head⟩ :=
    underway.ahead nodup last successor
  obtain rfl := List.head?_eq_none_iff.mp head
  rw [split, passed, List.append_nil]
  exact perm.append_right held

/-- No node is held twice. -/
theorem Underway.nodup (underway : Underway order held walked) (nodup : order.Nodup) :
    held.Nodup := by
  obtain ⟨_, front, back, _, split, _, _⟩ := underway
  rw [split] at nodup
  exact (List.nodup_append.mp (List.nodup_append.mp nodup).1).2.1

/-- Locking the successor of the last one held keeps the segment one. -/
theorem Underway.cons (underway : Underway order held walked) (nodup : order.Nodup)
    {before : List Node} (last : held = before ++ [y]) (successor : Successor order y (some x)) :
    Underway order (held ++ [x]) (walked ++ [x]) := by
  obtain ⟨front, back, behind, split, passed, perm, head⟩ :=
    underway.ahead nodup last successor
  obtain ⟨rest, rfl⟩ := List.head?_eq_some_iff.mp head
  exact ⟨by simp, front, rest, behind, by simp [split], by simp [passed], perm⟩

/-- So does unlocking the first one. -/
theorem Underway.tail {rest : List Node} (underway : Underway order (x :: rest) walked)
    (some : rest ≠ []) : Underway order rest walked := by
  obtain ⟨_, front, back, behind, split, passed, perm⟩ := underway
  exact ⟨some, front ++ [x], back, behind ++ [x], by simp [split], by simp [passed],
    perm.append_right [x]⟩

/-- An exchange elsewhere only permutes what a walker has passed. -/
theorem Underway.exchange (underway : Underway order held walked)
    (split : order = front ++ p :: a :: b :: back) (disjoint : held.Disjoint [p, a, b]) :
    Underway (front ++ p :: b :: a :: back) held walked := by
  obtain ⟨some, front', back', behind, split', passed, perm⟩ := underway
  have same : front' ++ held ++ back' = front ++ [p, a, b] ++ back := by
    simpa using split'.symm.trans split
  obtain ⟨between, rfl, rfl⟩ | ⟨between, rfl, rfl⟩ :=
    segments_apart same some (List.cons_ne_nil _ _) disjoint
  · exact ⟨some, front', between ++ p :: b :: a :: back, behind, by simp, passed, perm⟩
  · refine ⟨some, front ++ p :: b :: a :: between, back', behind, by simp, passed,
      perm.trans ?_⟩
    have swapped : (p :: a :: b :: between).Perm (p :: b :: a :: between) :=
      (List.Perm.swap b a between).cons p
    simpa using swapped.append_left front

/-- Before anyone has locked anything. -/
theorem Sound.start (nodup : s.order.Nodup) (none : ∀ t, s.held t = [])
    (still : ∀ t, s.walking t = false) : Sound conflict s where
  nodup := nodup
  apart := by
    intro t u _ _
    simp [none]
  distinct := by
    intro t
    simp [none]
  underway := by
    intro t walking
    simp [still] at walking

/-- A walker holds nodes of the list only. -/
theorem Sound.subset (sound : Sound conflict s) (begun : s.walking t = true) :
    s.held t ⊆ s.order := by
  obtain ⟨_, front, back, _, split, _, _⟩ := sound.underway t begun
  rw [split]
  intro x member
  exact List.mem_append_left _ (List.mem_append_right _ member)

/-! ## Who waits for whom -/

/-- What a walker locks next stands behind all it holds. -/
theorem Sound.idxOf_lt [DecidableEq Node] (sound : Sound conflict s) (begun : s.walking t = true)
    {before : List Node} (last : s.held t = before ++ [y])
    (successor : Successor s.order y (some x)) {z : Node} (held : z ∈ s.held t) :
    s.order.idxOf z < s.order.idxOf x := by
  obtain ⟨front, back, _, split, _, _, head⟩ :=
    (sound.underway t begun).ahead sound.nodup last successor
  obtain ⟨rest, rfl⟩ := List.head?_eq_some_iff.mp head
  have nodup := sound.nodup
  rw [split] at nodup ⊢
  have fresh : x ∉ front ++ s.held t := by
    intro inside
    exact (List.nodup_append.mp nodup).2.2 x inside x List.mem_cons_self rfl
  have inside : z ∈ front ++ s.held t := List.mem_append_right _ held
  rw [List.idxOf_append_of_mem inside, List.idxOf_append_of_notMem fresh]
  exact Nat.lt_of_lt_of_le (List.idxOf_lt_length_of_mem inside) (Nat.le_add_right _ _)

/-- **No cycle of waiting threads.** A rank that rises from every thread that waits to
the one it waits for, if that one waits as well, rules out a cycle. -/
theorem not_transGen_self {waits : Thread → Thread → Prop} {rank : Thread → ℕ}
    (rises : ∀ t u v, waits t u → waits u v → rank t < rank u) (t : Thread) :
    ¬ Relation.TransGen waits t t := by
  intro cycle
  have climbs : ∀ u v, Relation.TransGen waits t u → waits u v → rank t < rank u := by
    intro u v path
    induction path generalizing v with
    | single first => exact rises t _ v first
    | tail _ last ih => exact fun onward => (ih _ last).trans (rises _ _ v last onward)
  obtain ⟨v, first, _⟩ := Relation.TransGen.head'_iff.mp cycle
  exact lt_irrefl _ (climbs t v cycle first)

/-! ## What a step does -/

variable [DecidableEq Thread]

/-- A lock that is free keeps conflicting threads apart. -/
theorem Sound.apart_lock (sound : Sound conflict s) (symmetric : ∀ t u, conflict t u → conflict u t)
    (free : Free conflict s t x) {now : List Node} (grown : ∀ y ∈ now, y ∈ s.held t ∨ y = x)
    (one two : Thread) (distinct : one ≠ two) (conflicts : conflict one two) :
    (Function.update s.held t now one).Disjoint (Function.update s.held t now two) := by
  have other : ∀ u, u ≠ t → conflict t u → now.Disjoint (s.held u) := by
    intro u away against y mine theirs
    obtain held | rfl := grown y mine
    · exact sound.apart t u away.symm against held theirs
    · exact free u away against theirs
  by_cases first : one = t
  · subst first
    rw [Function.update_self, Function.update_of_ne distinct.symm]
    exact other two distinct.symm conflicts
  · rw [Function.update_of_ne first]
    by_cases second : two = t
    · subst second
      rw [Function.update_self]
      exact List.disjoint_symm (other one first (symmetric _ _ conflicts))
    · rw [Function.update_of_ne second]
      exact sound.apart one two distinct conflicts

/-- Every thread holds distinct nodes still. -/
theorem Sound.distinct_update (sound : Sound conflict s) {now : List Node} (nodup : now.Nodup)
    (u : Thread) : (Function.update s.held t now u).Nodup := by
  by_cases self : u = t
  · subst self
    rwa [Function.update_self]
  · rw [Function.update_of_ne self]
    exact sound.distinct u

/-- Whoever holds less than before holds it apart from the others. -/
theorem Sound.apart_unlock (sound : Sound conflict s) {now : List Node} (fewer : now ⊆ s.held t)
    (one two : Thread) (distinct : one ≠ two) (conflicts : conflict one two) :
    (Function.update s.held t now one).Disjoint (Function.update s.held t now two) := by
  have shrunk : ∀ u, Function.update s.held t now u ⊆ s.held u := by
    intro u
    by_cases self : u = t
    · subst self
      rwa [Function.update_self]
    · rw [Function.update_of_ne self]
      exact List.Subset.refl _
  intro y first second
  exact sound.apart one two distinct conflicts (shrunk one first) (shrunk two second)

/-- **The step lemma.** Every act keeps the invariant. -/
theorem Sound.move (symmetric : ∀ t u, conflict t u → conflict u t) (sound : Sound conflict s)
    (moved : Move conflict s next) : Sound conflict next := by
  cases moved with
  | enter t x rest _ order free =>
      refine ⟨sound.nodup, sound.apart_lock symmetric free (by simp),
        sound.distinct_update (List.nodup_singleton x), ?_⟩
      intro u walking
      by_cases self : u = t
      · subst self
        simp only [Function.update_self]
        exact ⟨by simp, [], rest, [], by simp [order], by simp, .refl _⟩
      · simp only [Function.update_of_ne self] at walking ⊢
        exact sound.underway u walking
  | advance t x y before begun last successor free =>
      have further := (sound.underway t begun).cons sound.nodup last successor
      refine ⟨sound.nodup, sound.apart_lock symmetric free (by simp),
        sound.distinct_update (further.nodup sound.nodup), ?_⟩
      intro u walking
      by_cases self : u = t
      · subst self
        simp only [Function.update_self]
        exact further
      · simp only [Function.update_of_ne self]
        exact sound.underway u walking
  | drop t x rest begun held some =>
      have fewer := (List.nodup_cons.mp (held ▸ sound.distinct t)).2
      refine ⟨sound.nodup, sound.apart_unlock (by simp [held]), sound.distinct_update fewer, ?_⟩
      intro u walking
      by_cases self : u = t
      · subst self
        simp only [Function.update_self]
        exact (held ▸ sound.underway u walking).tail some
      · simp only [Function.update_of_ne self]
        exact sound.underway u walking
  | leave t rest fewer =>
      refine ⟨sound.nodup, sound.apart_unlock fewer.subset,
        sound.distinct_update (fewer.nodup (sound.distinct t)), ?_⟩
      intro u walking
      by_cases self : u = t
      · subst self
        simp at walking
      · simp only [Function.update_of_ne self] at walking ⊢
        exact sound.underway u walking
  | exchange t p a b front back begun held against split =>
      have nodup : (front ++ p :: b :: a :: back).Nodup := by
        have perm : (p :: b :: a :: back).Perm (p :: a :: b :: back) :=
          (List.Perm.swap a b back).cons p
        exact ((perm.append_left front).nodup_iff).mpr (split ▸ sound.nodup)
      refine ⟨nodup, sound.apart, sound.distinct, ?_⟩
      intro u walking
      by_cases self : u = t
      · subst self
        simp at walking
      · simp only [Function.update_of_ne self] at walking
        exact (sound.underway u walking).exchange split
          (held ▸ sound.apart u t self (against u))

/-- What the threads hold are nodes of the list, also after they have walked. -/
theorem Move.subset (moved : Move conflict s next) (inside : ∀ t, s.held t ⊆ s.order)
    (u : Thread) : next.held u ⊆ next.order := by
  have changed : ∀ {t : Thread} {now : List Node}, now ⊆ s.order →
      Function.update s.held t now u ⊆ s.order := by
    intro t now within
    by_cases self : u = t
    · subst self
      rwa [Function.update_self]
    · rw [Function.update_of_ne self]
      exact inside u
  cases moved with
  | enter t x rest _ order _ =>
      refine changed (List.cons_subset.mpr ⟨?_, List.nil_subset _⟩)
      rw [order]
      exact List.mem_cons_self
  | advance t x y before _ last successor _ =>
      obtain ⟨front, back, split, head⟩ := successor
      obtain ⟨rest, rfl⟩ := List.head?_eq_some_iff.mp head
      have follows : x ∈ s.order := by simp [split]
      refine changed (List.append_subset.mpr ⟨inside t, ?_⟩)
      exact List.cons_subset.mpr ⟨follows, List.nil_subset _⟩
  | drop t x rest _ held _ =>
      have fewer : rest ⊆ s.held t := held ▸ List.subset_cons_self x rest
      exact changed (List.Subset.trans fewer (inside t))
  | leave t rest fewer => exact changed (List.Subset.trans fewer.subset (inside t))
  | exchange t p a b front back _ _ _ split =>
      intro x member
      have perm : (front ++ p :: b :: a :: back).Perm s.order :=
        split ▸ ((List.Perm.swap a b back).cons p).append_left front
      exact perm.mem_iff.mpr (inside u member)

end HandOverHand
