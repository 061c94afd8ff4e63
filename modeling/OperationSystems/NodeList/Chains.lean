import OperationSystems.NodeList.Walk

/-!
# The chain in memory

At any time the nodes that are reached from the sentinel are those of the list, in its
order, without the ones that unfinished swaps have taken out.
-/

namespace OperationSystems.NodeList

open HandOverHand LinkedCells Transition

/-- A chain may leave out nodes: the pointer of each visible node is to the next one that
is visible. `gap` are the hidden nodes behind `x`. -/
theorem chain_filter {memory : Node → Option Node} {visible : Node → Bool} {order : List Node}
    (reads : ∀ front x back, order = front ++ x :: back → visible x = true →
      memory x = (back.filter visible).head?)
    {front gap rest : List Node} {x : Node} (split : order = front ++ x :: (gap ++ rest))
    (shown : visible x = true) (hidden : ∀ y ∈ gap, visible y = false) :
    Chain memory x (rest.filter visible) := by
  have skipped : (gap.filter visible) = [] :=
    List.filter_eq_nil_iff.mpr fun y member => by simp [hidden y member]
  have ahead := reads front x (gap ++ rest) split shown
  rw [List.filter_append, skipped, List.nil_append] at ahead
  induction rest generalizing front gap x with
  | nil => exact congrArg some ahead
  | cons y rest ih =>
      by_cases seen : visible y = true
      · rw [List.filter_cons_of_pos seen] at ahead ⊢
        have further : order = (front ++ x :: gap) ++ y :: ([] ++ rest) := by simp [split]
        refine ⟨congrArg some ahead, ih further seen nofun rfl ?_⟩
        exact reads (front ++ x :: gap) y rest (by simp [split]) seen
      · rw [List.filter_cons_of_neg seen] at ahead ⊢
        have wider : ∀ z ∈ gap ++ [y], visible z = false := by
          intro z member
          obtain inside | rfl : z ∈ gap ∨ z = y := by simpa using member
          · exact hidden z inside
          · simpa using seen
        have wide : order = front ++ x :: ((gap ++ [y]) ++ rest) := by simp [split]
        refine ih wide shown wider ?_ ahead
        exact List.filter_eq_nil_iff.mpr fun z member => by simp [wider z member]

variable {τ : Type*} {v : Variant} {s : Storage} {roles : τ → Role} {data : List Node}
  {w next : World τ} {t : τ}

/-- The chain reaches the node, as far as unfinished swaps go. -/
def World.visible [Fintype τ] (w : World τ) (x : Node) : Bool :=
  decide (∀ t, (w.pc t).hidden ≠ some x)

/-- What a node that is taken out says about the list. -/
theorem Placed.hiding (placed : Placed s roles data w)
    (sound : Sound (Conflicts v roles) (w.view s data)) {a : Node}
    (hidden : (w.pc t).hidden = some a) :
    ∃ front prev b back, w.order s data = front ++ prev :: a :: b :: back ∧
      w.held t = [prev, a, b] ∧ w.next prev = some b ∧ prev ∈ (w.pc t).disturbed ∧
      (roles t).writes = true ∧ ∀ x ∈ (w.pc t).disturbed, x = prev ∨ x = a := by
  have located := placed.located t
  suffices ∃ prev b, (w.pc t).walks = true ∧ w.held t = [prev, a, b] ∧ w.next prev = some b ∧
      prev ∈ (w.pc t).disturbed ∧ ∀ x ∈ (w.pc t).disturbed, x = prev ∨ x = a by
    obtain ⟨prev, b, walks, held, linked, inside, only⟩ := this
    obtain ⟨_, front, back, _, split, _, _⟩ := sound.underway t walks
    change w.order s data = front ++ w.held t ++ back at split
    refine ⟨front, prev, b, back, ?_, held, linked, inside,
      Role.writes_of_disturbed located.runs inside, only⟩
    rw [split, held]
    simp
  have holds := located.held
  have stored := located.stored
  cases point : w.pc t with
  | swap pc =>
      rw [point] at hidden holds stored
      cases pc with
      | loadNext index prev a b =>
          obtain rfl := Option.some.inj hidden
          exact ⟨prev, b, rfl, holds, stored, List.mem_cons_self, by
            simp [Pc.disturbed, SwapPc.disturbed]⟩
      | storeA index prev a b node =>
          obtain rfl := Option.some.inj hidden
          exact ⟨prev, b, rfl, holds, stored, List.mem_cons_self, by
            simp [Pc.disturbed, SwapPc.disturbed]⟩
      | storeB index prev a b =>
          obtain rfl := Option.some.inj hidden
          exact ⟨prev, b, rfl, holds, stored.1, List.mem_cons_self, by
            simp [Pc.disturbed, SwapPc.disturbed]⟩
      | _ => cases hidden
  | traverse pc =>
      rw [point] at hidden
      cases hidden
  | monitor pc =>
      rw [point] at hidden
      cases hidden

/-- Where nobody holds a node, none is taken out. -/
theorem Placed.settled_of_idle (placed : Placed s roles data w)
    (sound : Sound (Conflicts v roles) (w.view s data)) (idle : ∀ t, w.held t = []) (t : τ) :
    (w.pc t).hidden = none := by
  cases hides : (w.pc t).hidden with
  | none => rfl
  | some a =>
      obtain ⟨_, _, _, _, _, held, _⟩ := placed.hiding sound hides
      cases (idle t).symm.trans held

/-- Where a pointer differs from the list, a swap has taken out the node behind. -/
theorem Pc.hidden_of_disturbed {pc : Pc} {x : Node} (member : x ∈ pc.disturbed) :
    ∃ a, pc.hidden = some a := by
  cases pc with
  | swap pc =>
      cases pc with
      | loadNext index prev a b => exact ⟨a, rfl⟩
      | storeA index prev a b node => exact ⟨a, rfl⟩
      | storeB index prev a b => exact ⟨a, rfl⟩
      | _ => simp [Pc.disturbed, SwapPc.disturbed] at member
  | traverse pc => simp [Pc.disturbed] at member
  | monitor pc => simp [Pc.disturbed] at member

variable [Fintype τ]

theorem World.visible_iff {x : Node} : w.visible x = true ↔ ∀ t, (w.pc t).hidden ≠ some x :=
  decide_eq_true_iff

theorem World.not_visible_iff {x : Node} : w.visible x = false ↔ ∃ t, (w.pc t).hidden = some x := by
  unfold World.visible
  simp

/-- A node held by a thread that has taken out none is visible. -/
theorem Placed.visible_of_held (placed : Placed s roles data w)
    (sound : Sound (Conflicts v roles) (w.view s data)) {x : Node} (held : x ∈ w.held t)
    (none : (w.pc t).hidden ≠ some x) : w.visible x = true := by
  refine World.visible_iff.mpr fun u hides => ?_
  obtain ⟨_, prev, b, _, _, theirs, _, _, writes, _⟩ := placed.hiding sound hides
  by_cases self : u = t
  · exact none (self ▸ hides)
  · apply sound.apart t u (Ne.symm self) (.of_writes t writes) held
    change x ∈ w.held u
    rw [theirs]
    simp

/-- The pointer of a visible node is to the next visible one. -/
theorem Placed.reads (placed : Placed s roles data w)
    (sound : Sound (Conflicts v roles) (w.view s data)) {front back : List Node} {x : Node}
    (split : w.order s data = front ++ x :: back) (shown : w.visible x = true) :
    w.next x = (back.filter w.visible).head? := by
  have nodup : (w.order s data).Nodup := sound.nodup
  by_cases disturbed : ∃ u, x ∈ (w.pc u).disturbed
  · obtain ⟨u, member⟩ := disturbed
    obtain ⟨a, hides⟩ := Pc.hidden_of_disturbed member
    obtain ⟨front', prev, b, back', site, held, linked, _, _, only⟩ := placed.hiding sound hides
    obtain rfl | rfl := only x member
    · obtain ⟨_, rfl⟩ := split_unique nodup split site
      have apart : a ≠ b := by
        have three := sound.distinct u
        change (w.held u).Nodup at three
        rw [held] at three
        simp only [List.nodup_cons, List.mem_cons] at three
        exact fun same => three.2.1 (.inl same)
      have out : w.visible a = false := World.not_visible_iff.mpr ⟨u, hides⟩
      have seen : w.visible b = true := by
        refine placed.visible_of_held (t := u) sound (by simp [held]) ?_
        rw [hides]
        exact fun same => apart (Option.some.inj same)
      rw [linked, List.filter_cons_of_neg (by simp [out]), List.filter_cons_of_pos seen]
      rfl
    · exact absurd hides (World.visible_iff.mp shown u)
  · have follows := placed.linked x back.head? ⟨front, back, split, rfl⟩
      fun u member => disturbed ⟨u, member⟩
    rw [follows]
    cases back with
    | nil => rfl
    | cons y back =>
        have seen : w.visible y = true := by
          refine World.visible_iff.mpr fun u hides => disturbed ⟨u, ?_⟩
          obtain ⟨front', prev, b, back', site, _, _, inside, _, _⟩ := placed.hiding sound hides
          have one : w.order s data = (front ++ [x]) ++ y :: back := by simp [split]
          have two : w.order s data = (front' ++ [prev]) ++ y :: b :: back' := by simp [site]
          have same := (split_unique nodup one two).1
          obtain rfl : x = prev := by simpa using List.append_inj_right' same rfl
          exact inside
        rw [List.filter_cons_of_pos seen]
        rfl

/-- The sentinel is never taken out. -/
theorem Placed.first_visible (placed : Placed s roles data w)
    (sound : Sound (Conflicts v roles) (w.view s data)) : w.visible s.first = true := by
  refine World.visible_iff.mpr fun u hides => ?_
  obtain ⟨front, prev, b, back, site, _⟩ := placed.hiding sound hides
  have one : w.order s data = [] ++ s.first :: w.listed data := rfl
  have two : w.order s data = (front ++ [prev]) ++ s.first :: b :: back := by simp [site]
  have same := (split_unique sound.nodup one two).1
  simp at same

/-- **The chain in memory** is the list without the nodes that are taken out. -/
theorem Placed.chain (placed : Placed s roles data w)
    (sound : Sound (Conflicts v roles) (w.view s data)) :
    Chain w.next s.first ((w.listed data).filter w.visible) := by
  have split : w.order s data = [] ++ s.first :: ([] ++ w.listed data) := rfl
  exact chain_filter (fun _ _ _ => placed.reads sound) split (placed.first_visible sound) nofun

/-- Where no swap is between its stores, the memory holds the list. -/
theorem Placed.chain_settled (placed : Placed s roles data w)
    (sound : Sound (Conflicts v roles) (w.view s data)) (settled : ∀ t, (w.pc t).hidden = none) :
    Chain w.next s.first (w.listed data) := by
  have all : (w.listed data).filter w.visible = w.listed data := by
    refine List.filter_eq_self.mpr fun x _ => World.visible_iff.mpr fun t => ?_
    rw [settled t]
    nofun
  have chain := placed.chain sound
  rwa [all] at chain

end OperationSystems.NodeList
