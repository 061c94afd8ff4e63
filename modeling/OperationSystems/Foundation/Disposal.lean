import OperationSystems.Foundation.LinkedCells

/-!
# Freeing a linked list

The loop that frees a list reads the link of a node, frees the node and goes on with
what it has read. On a path it reads no node that it has freed, and frees every node
of the path once; and where it comes to an end at all, it has been on a path.
-/

namespace LinkedCells

variable {Node Cell State : Type*} (next : Node → Cell)
  (cells : State → Cell → Option (Option Node)) (free : State → Node → State)

/-- Free the list that begins at a node. `none` where the link of a node is read that is
not allocated, or where the fuel runs out; otherwise the nodes are listed in the order in
which they are freed. -/
def dispose : ℕ → State → Option Node → Option (State × List Node)
  | _, state, none => some (state, [])
  | 0, _, some _ => none
  | fuel + 1, state, some node => (cells state (next node)).bind fun link =>
      (dispose fuel (free state node) link).map fun (final, freed) => (final, node :: freed)

variable {next cells free} {old : Cell → Option (Option Node)} {cell : Cell} {nodes : List Node}

/-- **A path is freed node by node.** It may be a path of an earlier state, as long as its
nodes have kept their links. -/
theorem Path.dispose (path : Path next old cell nodes)
    (frame : ∀ state node other, other ≠ node →
      cells (free state node) (next other) = cells state (next other))
    {first : Option Node} (named : old cell = some first) {state : State}
    (same : ∀ node ∈ nodes, cells state (next node) = old (next node))
    {fuel : ℕ} (enough : nodes.length ≤ fuel) :
    LinkedCells.dispose next cells free fuel state first =
      some (nodes.foldl free state, nodes) := by
  have distinct := path.nodup
  induction nodes generalizing cell first state fuel with
  | nil =>
      have null : old cell = some none := path
      obtain rfl := Option.some.inj (named.symm.trans null)
      cases fuel <;> rfl
  | cons node nodes ih =>
      obtain rfl := Option.some.inj (named.symm.trans path.1)
      obtain ⟨out, rest⟩ := List.nodup_cons.mp distinct
      cases fuel with
      | zero => exact absurd enough (by simp)
      | succ fuel =>
          have shorter : nodes.length ≤ fuel := Nat.le_of_succ_le_succ enough
          obtain ⟨link, holds⟩ : ∃ link, old (next node) = some link := by
            cases nodes with
            | nil => exact ⟨none, path.2⟩
            | cons later _ => exact ⟨some later, path.2.1⟩
          have reads : cells state (next node) = some link :=
            (same node List.mem_cons_self).trans holds
          have kept : ∀ other ∈ nodes, cells (free state node) (next other) = old (next other) := by
            intro other member
            have apart : other ≠ node := by
              rintro rfl
              exact out member
            rw [frame state node other apart]
            exact same other (List.mem_cons_of_mem _ member)
          have goes := ih path.2 holds kept shorter rest
          unfold LinkedCells.dispose
          rw [reads, Option.bind_some, goes, Option.map_some]
          rfl

/-- **What is freed is a path**, and every node of it could be read. The states between keep
what makes a readable link that of the old memory. -/
theorem dispose_path {keeps : State → Prop} {readable : Node → Prop}
    (kept : ∀ state node, keeps state → keeps (free state node))
    (reads : ∀ state node link, keeps state → cells state (next node) = some link →
      readable node ∧ old (next node) = some link)
    {first : Option Node} (named : old cell = some first) {state final : State}
    (begun : keeps state) {fuel : ℕ}
    (disposed : LinkedCells.dispose next cells free fuel state first = some (final, nodes)) :
    Path next old cell nodes ∧ ∀ node ∈ nodes, readable node := by
  induction fuel generalizing cell first state nodes with
  | zero =>
      cases first with
      | none =>
          obtain ⟨_, rfl⟩ := Prod.mk.inj (Option.some.inj disposed)
          exact ⟨named, nofun⟩
      | some node => cases disposed
  | succ fuel ih =>
      cases first with
      | none =>
          obtain ⟨_, rfl⟩ := Prod.mk.inj (Option.some.inj disposed)
          exact ⟨named, nofun⟩
      | some node =>
          obtain ⟨link, read, rest⟩ := Option.bind_eq_some_iff.mp disposed
          obtain ⟨⟨last, freed⟩, goes, same⟩ := Option.map_eq_some_iff.mp rest
          obtain ⟨rfl, rfl⟩ := Prod.mk.inj same
          obtain ⟨here, holds⟩ := reads state node link begun read
          obtain ⟨path, others⟩ := ih holds (kept state node begun) goes
          refine ⟨⟨named, path⟩, fun other member => ?_⟩
          rcases List.mem_cons.mp member with rfl | later
          · exact here
          · exact others other later

end LinkedCells
