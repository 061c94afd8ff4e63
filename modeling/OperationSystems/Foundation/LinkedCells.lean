import Mathlib.Data.Finset.Card
import Mathlib.Data.Finset.Range
import Mathlib.Data.List.Nodup
import Mathlib.Logic.Function.Basic

/-!
# Singly linked lists threaded through cells

A *cell* is a place that holds a nullable node address: the head of a list or
the `next` field inside a node. `next a` is the cell inside node `a`, and
`cells c` is what cell `c` holds, `none` when the cell is not allocated. A list
in memory is a `Path`: a cell, the node it names, the node that one's cell
names, and so on to a null cell. The walking loops of pointer programs read
cells one after another; on a path they neither dangle nor run on, and the loop
that looks for the cell pointing at a node finds the one whose overwriting
removes exactly that node.
-/

namespace LinkedCells

variable {Node Cell : Type*} (next : Node → Cell) (cells : Cell → Option (Option Node))

/-- The nodes met when following the cells from `cell` to a null cell. -/
def Path : Cell → List Node → Prop
  | cell, [] => cells cell = some none
  | cell, node :: nodes => cells cell = some (some node) ∧ Path (next node) nodes

variable {next cells} {cell : Cell} {node : Node} {nodes : List Node}

@[simp] theorem path_nil : Path next cells cell [] ↔ cells cell = some none := Iff.rfl

@[simp] theorem path_cons : Path next cells cell (node :: nodes) ↔
    cells cell = some (some node) ∧ Path next cells (next node) nodes := Iff.rfl

/-- The cells alone decide which path starts at a cell. -/
theorem Path.unique {others : List Node} (first : Path next cells cell nodes)
    (second : Path next cells cell others) : nodes = others := by
  induction nodes generalizing cell others with
  | nil =>
      cases others with
      | nil => rfl
      | cons other others => simp_all
  | cons node nodes ih =>
      cases others with
      | nil => simp_all
      | cons other others =>
          have same : node = other := by
            have held := first.1.symm.trans second.1
            simpa using held
          subst same
          rw [ih first.2 second.2]

/-- The rest of a path is a path. -/
theorem Path.drop {before after : List Node}
    (path : Path next cells cell (before ++ node :: after)) :
    Path next cells (next node) after := by
  induction before generalizing cell with
  | nil => exact path.2
  | cons _ _ ih => exact ih path.2

/-- A path never comes back to a node: the rest of the path after both visits
would be the same list with two lengths. -/
theorem Path.nodup (path : Path next cells cell nodes) : nodes.Nodup := by
  induction nodes generalizing cell with
  | nil => exact List.nodup_nil
  | cons node nodes ih =>
      refine List.nodup_cons.mpr ⟨fun again => ?_, ih path.2⟩
      obtain ⟨before, after, rfl⟩ := List.append_of_mem again
      have twice := Path.unique path.2 path.2.drop
      have lengths := congrArg List.length twice
      simp at lengths
      omega

/-- The same links under other names are the same path. -/
theorem Path.rename {Place : Type*} {following : Node → Place}
    {places : Place → Option (Option Node)} {place : Place} (path : Path next cells cell nodes)
    (here : places place = cells cell)
    (inside : ∀ node ∈ nodes, places (following node) = cells (next node)) :
    Path following places place nodes := by
  induction nodes generalizing cell place with
  | nil => exact here.trans path
  | cons node nodes ih =>
      exact ⟨here.trans path.1, ih path.2 (inside node List.mem_cons_self) fun later member =>
        inside later (List.mem_cons_of_mem _ member)⟩

/-- A path only reads its first cell and those of its nodes, so it is also
found from another cell and in other cells that hold the same there. -/
theorem Path.transfer {others : Cell → Option (Option Node)} {place : Cell}
    (path : Path next cells cell nodes) (here : others place = cells cell)
    (inside : ∀ node ∈ nodes, others (next node) = cells (next node)) :
    Path next others place nodes :=
  path.rename here inside

/-- Every node of a path has a cell. -/
theorem Path.allocated (path : Path next cells cell nodes) (member : node ∈ nodes) :
    ∃ value, cells (next node) = some value := by
  obtain ⟨before, after, rfl⟩ := List.append_of_mem member
  cases after with
  | nil => exact ⟨none, path.drop⟩
  | cons later after => exact ⟨some later, path.drop.1⟩

/-- **Head insertion.** A node whose cell holds what the head held, stored at
the head, is put in front. -/
theorem Path.push (path : Path next cells cell nodes) {fresh : Node}
    {others : Cell → Option (Option Node)} (head : others cell = some (some fresh))
    (linked : others (next fresh) = cells cell)
    (inside : ∀ node ∈ nodes, others (next node) = cells (next node)) :
    Path next others cell (fresh :: nodes) :=
  ⟨head, path.transfer linked inside⟩

/-- **Cutting.** A null stored in a node's cell makes that node the last one. -/
theorem Path.cut [DecidableEq Cell] {before after : List Node}
    (path : Path next cells cell (before ++ node :: after)) (injective : Function.Injective next)
    (outside : ∀ inner ∈ before ++ [node], next inner ≠ cell) :
    Path next (Function.update cells (next node) (some none)) cell (before ++ [node]) := by
  induction before generalizing cell with
  | nil =>
      have first : cell ≠ next node := (outside node List.mem_cons_self).symm
      exact ⟨(Function.update_of_ne first _ _).trans path.1, Function.update_self ..⟩
  | cons inner before ih =>
      have first : cell ≠ next node := (outside node (by simp)).symm
      have distinct := (List.nodup_cons.mp path.nodup).1
      refine ⟨(Function.update_of_ne first _ _).trans path.1, ih path.2 fun later member same => ?_⟩
      have twice : inner ∈ before ++ [node] := injective same ▸ member
      refine distinct (List.mem_append.mpr ?_)
      obtain earlier | last := List.mem_append.mp twice
      · exact .inl earlier
      · exact .inr (List.mem_singleton.mp last ▸ List.mem_cons_self)

/-- Cells that agree on the way to a node lead to it. -/
theorem Path.leads {others : Cell → Option (Option Node)} {place : Cell}
    {before after found : List Node} (path : Path next cells cell (before ++ node :: after))
    (here : others place = cells cell)
    (inside : ∀ inner ∈ before, others (next inner) = cells (next inner))
    (walk : Path next others place found) : node ∈ found := by
  induction before generalizing cell place found with
  | nil =>
      cases found with
      | nil => cases (walk.symm.trans here).trans path.1
      | cons other found =>
          have same : other = node := by simpa using (walk.1.symm.trans here).trans path.1
          exact same ▸ List.mem_cons_self
  | cons inner before ih =>
      cases found with
      | nil => cases (walk.symm.trans here).trans path.1
      | cons other found =>
          have same : other = inner := by simpa using (walk.1.symm.trans here).trans path.1
          subst same
          exact List.mem_cons_of_mem _ (ih path.2 (inside other List.mem_cons_self)
            (fun later member => inside later (List.mem_cons_of_mem _ member)) walk.2)

/-- **A second insertion.** Where a node on the path is inserted at the head once more,
there is no path any longer. -/
theorem Path.push_twice {others : Cell → Option (Option Node)}
    (path : Path next cells cell nodes) (member : node ∈ nodes)
    (head : others cell = some (some node))
    (linked : others (next node) = cells cell)
    (inside : ∀ inner, inner ≠ node → others (next inner) = cells (next inner)) :
    ¬ ∃ found, Path next others cell found := by
  rintro ⟨found, walk⟩
  cases found with
  | nil => cases walk.symm.trans head
  | cons other found =>
      have same : other = node := by simpa using walk.1.symm.trans head
      subst same
      obtain ⟨before, after, rfl⟩ := List.append_of_mem member
      have apart : ∀ inner ∈ before, inner ≠ other := by
        rintro inner within rfl
        exact (List.nodup_append.mp path.nodup).2.2 inner within inner List.mem_cons_self rfl
      exact (List.nodup_cons.mp walk.nodup).1
        (path.leads linked (fun inner within => inside inner (apart inner within)) walk.2)

/-- The null cell that ends a path: that of its last node, or the first one. -/
def lastCell (next : Node → Cell) (cell : Cell) (nodes : List Node) : Cell :=
  (nodes.getLast?.map next).getD cell

theorem lastCell_cons (node : Node) (nodes : List Node) :
    lastCell next cell (node :: nodes) = lastCell next (next node) nodes := by
  cases nodes with
  | nil => rfl
  | cons later nodes => simp [lastCell, List.getLast?_cons]

/-- **Insertion at the end.** A node with a null cell, stored in the cell that ended
the path, is put behind the last node. -/
theorem Path.append (path : Path next cells cell nodes) {fresh : Node}
    {others : Cell → Option (Option Node)} (injective : Function.Injective next)
    (outside : ∀ node ∈ nodes, next node ≠ cell)
    (last : others (lastCell next cell nodes) = some (some fresh))
    (null : others (next fresh) = some none)
    (same : ∀ place, place ≠ lastCell next cell nodes → others place = cells place) :
    Path next others cell (nodes ++ [fresh]) := by
  induction nodes generalizing cell with
  | nil => exact ⟨last, null⟩
  | cons node nodes ih =>
      have distinct := List.nodup_cons.mp path.nodup
      have apart : ∀ inner ∈ nodes, next inner ≠ next node := by
        intro inner inside equal
        exact distinct.1 (injective equal ▸ inside)
      rw [lastCell_cons] at last same
      have first : cell ≠ lastCell next (next node) nodes := by
        unfold lastCell
        cases ending : nodes.getLast? with
        | none => exact (outside node List.mem_cons_self).symm
        | some inner =>
            exact (outside inner (List.mem_cons_of_mem _ (List.mem_of_getLast? ending))).symm
      exact ⟨(same cell first).trans path.1, ih path.2 apart last same⟩

/-! ## The walking loops -/

section Loops

variable (next cells)

/-- Walk from a cell until a node passes the test. The outer `none` is a read of
an unallocated cell or node, or the fuel running out; the inner one is the null
cell. -/
def find (test : Node → Option Bool) : Nat → Cell → Option (Option Node)
  | 0, _ => none
  | fuel + 1, cell =>
      match cells cell with
      | none => none
      | some none => some none
      | some (some node) =>
          match test node with
          | none => none
          | some true => some (some node)
          | some false => find test fuel (next node)

/-- Walk from a cell to the cell that names `target`. -/
def locate [DecidableEq Node] (target : Node) : Nat → Cell → Option (Option Cell)
  | 0, _ => none
  | fuel + 1, cell =>
      match cells cell with
      | none => none
      | some none => some none
      | some (some node) =>
          if node = target then some (some cell) else locate target fuel (next node)

/-- Walk from a cell to the null cell or to the first cell that names a node which
passes the test. -/
def seek (test : Node → Option Bool) : Nat → Cell → Option Cell
  | 0, _ => none
  | fuel + 1, cell =>
      match cells cell with
      | none => none
      | some none => some cell
      | some (some node) =>
          match test node with
          | none => none
          | some true => some cell
          | some false => seek test fuel (next node)

/-- Read the nodes off, stopping at a null or unallocated cell. -/
def collect : Nat → Cell → List Node
  | 0, _ => []
  | fuel + 1, cell =>
      match cells cell with
      | some (some node) => node :: collect fuel (next node)
      | _ => []

variable {next cells}

/-- On a path the search ends, and at the first node that passes. -/
theorem Path.find_eq {test : Node → Option Bool} {passes : Node → Bool}
    (path : Path next cells cell nodes) (tested : ∀ node ∈ nodes, test node = some (passes node))
    {fuel : Nat} (enough : nodes.length < fuel) :
    find next cells test fuel cell = some (nodes.find? passes) := by
  induction nodes generalizing cell fuel with
  | nil =>
      obtain ⟨fuel, rfl⟩ := Nat.exists_eq_succ_of_ne_zero (Nat.ne_zero_of_lt enough)
      have held : cells cell = some none := path
      simp [find, held]
  | cons node nodes ih =>
      obtain ⟨fuel, rfl⟩ := Nat.exists_eq_succ_of_ne_zero (Nat.ne_zero_of_lt enough)
      have rest := ih path.2 (fun later member => tested later (List.mem_cons_of_mem _ member))
        (Nat.lt_of_succ_lt_succ enough)
      cases passed : passes node <;>
        simp [find, path.1, tested node List.mem_cons_self, passed, rest]

/-- On a path on which no node passes, the walk ends at the null cell. -/
theorem Path.seek_null {test : Node → Option Bool} {passes : Node → Bool}
    (path : Path next cells cell nodes) (tested : ∀ node ∈ nodes, test node = some (passes node))
    (fails : nodes.find? passes = none) {fuel : Nat} (enough : nodes.length < fuel) :
    ∃ found, seek next cells test fuel cell = some found ∧ cells found = some none := by
  induction nodes generalizing cell fuel with
  | nil =>
      obtain ⟨fuel, rfl⟩ := Nat.exists_eq_succ_of_ne_zero (Nat.ne_zero_of_lt enough)
      have held : cells cell = some none := path
      exact ⟨cell, by simp [seek, held], held⟩
  | cons node nodes ih =>
      obtain ⟨fuel, rfl⟩ := Nat.exists_eq_succ_of_ne_zero (Nat.ne_zero_of_lt enough)
      obtain ⟨fails, later⟩ : passes node = false ∧ nodes.find? passes = none := by
        simpa [List.find?_eq_none] using fails
      obtain ⟨found, walked, held⟩ := ih path.2
        (fun inner member => tested inner (List.mem_cons_of_mem _ member)) later
        (Nat.lt_of_succ_lt_succ enough)
      exact ⟨found, by simp [seek, path.1, tested node List.mem_cons_self, fails, walked], held⟩

/-- A walk with enough fuel sees the nodes of the path. -/
theorem Path.collect_eq (path : Path next cells cell nodes) {fuel : Nat}
    (enough : nodes.length < fuel) : collect next cells fuel cell = nodes := by
  induction nodes generalizing cell fuel with
  | nil =>
      obtain ⟨fuel, rfl⟩ := Nat.exists_eq_succ_of_ne_zero (Nat.ne_zero_of_lt enough)
      have held : cells cell = some none := path
      simp [collect, held]
  | cons node nodes ih =>
      obtain ⟨fuel, rfl⟩ := Nat.exists_eq_succ_of_ne_zero (Nat.ne_zero_of_lt enough)
      simp [collect, path.1, ih path.2 (Nat.lt_of_succ_lt_succ enough)]

variable [DecidableEq Node]

/-- The first node that passes is located by the test as it is by its address. -/
theorem Path.locate_eq_seek {test : Node → Option Bool} {passes : Node → Bool} {target : Node}
    (path : Path next cells cell nodes) (tested : ∀ node ∈ nodes, test node = some (passes node))
    (first : nodes.find? passes = some target) (fuel : Nat) :
    locate next cells target fuel cell = (seek next cells test fuel cell).map some := by
  induction nodes generalizing cell fuel with
  | nil => cases first
  | cons node nodes ih =>
      cases fuel with
      | zero => rfl
      | succ fuel =>
          have here := tested node List.mem_cons_self
          cases passed : passes node
          · have later : nodes.find? passes = some target := by
              simpa [List.find?_cons, passed] using first
            have apart : node ≠ target := by
              rintro rfl
              exact absurd (List.find?_some later) (by simp [passed])
            have rest := ih path.2
              (fun inner member => tested inner (List.mem_cons_of_mem _ member)) later fuel
            simp only [seek, locate, path.1, here, passed, if_neg apart, rest]
          · have same : node = target := by simpa [List.find?_cons, passed] using first
            simp only [seek, locate, path.1, here, passed, if_pos same, Option.map_some]

/-- **Unlinking.** The walk to a node on the path ends at the cell that names
it, and storing the node's own link there removes exactly that node. -/
theorem Path.locate_spec [DecidableEq Cell] (path : Path next cells cell nodes) {target : Node}
    (injective : Function.Injective next) (outside : ∀ node ∈ nodes, next node ≠ cell)
    (member : target ∈ nodes) {fuel : Nat} (enough : nodes.length < fuel) :
    ∃ found, locate next cells target fuel cell = some (some found) ∧
      cells found = some (some target) ∧
      (found = cell ∨ ∃ node ∈ nodes, found = next node) ∧
      Path next (Function.update cells found (cells (next target))) cell (nodes.erase target) := by
  induction nodes generalizing cell fuel with
  | nil => exact absurd member List.not_mem_nil
  | cons node nodes ih =>
      obtain ⟨fuel, rfl⟩ := Nat.exists_eq_succ_of_ne_zero (Nat.ne_zero_of_lt enough)
      have distinct := List.nodup_cons.mp path.nodup
      by_cases here : node = target
      · subst here
        refine ⟨cell, by simp [locate, path.1], path.1, .inl rfl, ?_⟩
        rw [List.erase_cons_head]
        -- the cell that named the node now holds the node's own link
        cases nodes with
        | nil => simpa using path.2
        | cons later nodes =>
            refine ⟨by simpa using path.2.1, path.2.2.transfer ?_ fun inner inside => ?_⟩
            · exact Function.update_of_ne (outside later (by simp)) _ _
            · exact Function.update_of_ne (outside inner (by simp [inside])) _ _
      · have later : target ∈ nodes := (List.mem_cons.mp member).resolve_left (Ne.symm here)
        have apart : ∀ inner ∈ nodes, next inner ≠ next node := by
          intro inner inside same
          exact distinct.1 (injective same ▸ inside)
        obtain ⟨found, located, names, place, shorter⟩ :=
          ih path.2 apart later (Nat.lt_of_succ_lt_succ enough)
        have notHead : cell ≠ found := by
          rintro rfl
          rcases place with same | ⟨inner, inside, same⟩
          · exact outside node List.mem_cons_self same.symm
          · exact outside inner (List.mem_cons_of_mem _ inside) same.symm
        refine ⟨found, by simp [locate, path.1, here, located], names, ?_, ?_⟩
        · rcases place with same | ⟨inner, inside, same⟩
          · exact .inr ⟨node, List.mem_cons_self, same⟩
          · exact .inr ⟨inner, List.mem_cons_of_mem _ inside, same⟩
        · rw [List.erase_cons_tail (by simpa using here)]
          exact ⟨(Function.update_of_ne notHead _ _).trans path.1, shorter⟩

end Loops

/-- A path through nodes numbered below a bound is no longer than the bound. -/
theorem Path.length_le {Cell : Type*} {next : Nat → Cell} {cells : Cell → Option (Option Nat)}
    {cell : Cell} {nodes : List Nat} (path : Path next cells cell nodes) {bound : Nat}
    (below : ∀ node ∈ nodes, node < bound) : nodes.length ≤ bound := by
  rw [← List.toFinset_card_of_nodup path.nodup, ← Finset.card_range bound]
  refine Finset.card_le_card fun node member => ?_
  exact Finset.mem_range.mpr (below node (List.mem_toFinset.mp member))

end LinkedCells
