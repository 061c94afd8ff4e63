import OperationSystems.Foundation.Disposal
import OperationSystems.NodeList.Chains

/-!
# The list is printed and taken down

`storage_print` and `storage_destroy` walk the list without a lock, and `storage_destroy`
destroys the lock of every node before it frees it. Which nodes they meet in a state that
the threads have reached, and where they can be called.
-/

namespace OperationSystems.NodeList

open CStrings HandOverHand LinkedCells Transition

/-! ## `storage_print` -/

/-- What `%d` prints. -/
def decimal (n : ℕ) : List UInt8 := (Nat.toDigits 10 n).map fun c => c.toNat.toUInt8

/-- What `%03d` prints. -/
def decimal3 (n : ℕ) : List UInt8 := (decimal n).leftpad 3 48

def printedHeader (count : ℕ) : List UInt8 :=
  ascii "Storage contents (" ++ decimal count ++ ascii " nodes):\n"

def printedNode (i : ℕ) (value : Value) : List UInt8 :=
  ascii "[" ++ decimal3 i ++ ascii "] \"" ++ value.text.bytes ++ ascii "\"\n"

/-- The loop of `storage_print`. -/
def printLoop (s : Storage) (next : Node → Option Node) : ℕ → ℕ → Option Node → Option (List UInt8)
  | _, _, none => some []
  | 0, _, some _ => none
  | fuel + 1, i, some cur =>
      (printLoop s next fuel (i + 1) (next cur)).map (printedNode i (s.value cur) ++ ·)

/-- `storage_print`, with the pointers as they are now. `none` where the fuel runs out. -/
def storagePrint (next : Node → Option Node) (fuel : ℕ) : Option Storage → Option (List UInt8)
  | none => some []
  | some s => (printLoop s next fuel 0 (next s.first)).map (printedHeader s.count ++ ·)

/-- The lines of nodes that are numbered from `i`. -/
def printedNodes (s : Storage) : ℕ → List Node → List UInt8
  | _, [] => []
  | i, x :: rest => printedNode i (s.value x) ++ printedNodes s (i + 1) rest

/-- A chain is printed node by node. -/
theorem printLoop_chain {s : Storage} {next : Node → Option Node} {x : Node} {nodes : List Node}
    (chain : Chain next x nodes) {fuel : ℕ} (enough : nodes.length ≤ fuel) (i : ℕ) :
    printLoop s next fuel i (next x) = some (printedNodes s i nodes) := by
  induction nodes generalizing x fuel i with
  | nil =>
      have last : next x = none := Option.some.inj chain
      rw [last]
      cases fuel <;> rfl
  | cons y nodes ih =>
      have link : next x = some y := Option.some.inj chain.1
      have rest : Chain next y nodes := chain.2
      cases fuel with
      | zero => exact absurd enough (by simp)
      | succ fuel =>
          have goes := ih rest (Nat.le_of_succ_le_succ enough) (i + 1)
          rw [link, printLoop, goes]
          rfl

/-! ## `storage_destroy` -/

/-- A block that `storage_init` has allocated. -/
inductive Block
  | storage
  | node (x : Node)
  deriving DecidableEq

/-- What `storage_destroy` works on: the pointers, the locks that somebody holds, and the
nodes that it has freed. -/
structure Remains where
  next : Node → Option Node
  locked : Node → Bool
  freed : List Node

/-- `s->first` and the `next` of a node. It is undefined to read from a node that is freed,
and to destroy a lock that is held. -/
def Remains.cells (first : Node) (r : Remains) : Option Node → Option (Option Node)
  | none => some (some first)
  | some x => if x ∈ r.freed ∨ r.locked x = true then none else some (r.next x)

/-- `pthread_mutex_destroy(&cur->sync)` and `free(cur)`. -/
def Remains.free (r : Remains) (x : Node) : Remains := { r with freed := r.freed ++ [x] }

/-- `storage_destroy`, with the blocks that it frees. `none` where it does what is undefined,
or where the fuel runs out. -/
def storageDestroy (r : Remains) (fuel : ℕ) : Option Storage → Option (List Block)
  | none => some []
  | some s =>
      (dispose some (Remains.cells s.first) Remains.free fuel r (some s.first)).map
        fun (_, freed) => freed.map .node ++ [.storage]

/-- What the pointers alone say. -/
def links (first : Node) (next : Node → Option Node) : Option Node → Option (Option Node)
  | none => some (some first)
  | some x => some (next x)

theorem path_links {next : Node → Option Node} {first : Node} {nodes : List Node}
    (chain : Chain next first nodes) : Path some (links first next) none (first :: nodes) :=
  ⟨rfl, chain.rename rfl fun _ _ => rfl⟩

/-- Freeing a node changes nothing for the other ones. -/
theorem Remains.cells_free (first : Node) (r : Remains) (x y : Node) (other : y ≠ x) :
    (r.free x).cells first (some y) = r.cells first (some y) := by
  simp [Remains.cells, Remains.free, other]

section Chain

variable {s : Storage} {next : Node → Option Node} {locked : Node → Bool} {nodes : List Node}

/-- A chain without locks is taken down. -/
theorem storageDestroy_chain (chain : Chain next s.first nodes)
    (free : ∀ x ∈ s.first :: nodes, locked x = false) {fuel : ℕ} (enough : nodes.length < fuel) :
    storageDestroy ⟨next, locked, []⟩ fuel (some s) =
      some ((s.first :: nodes).map .node ++ [.storage]) := by
  have same : ∀ x ∈ s.first :: nodes,
      (Remains.mk next locked []).cells s.first (some x) = links s.first next (some x) := by
    intro x member
    simp [Remains.cells, links, free x member]
  have gone := (path_links chain).dispose (Remains.cells_free s.first) rfl same enough
  simp only [storageDestroy, gone, Option.map_some]

/-- What can be taken down is a chain without locks. -/
theorem chain_of_storageDestroy (chain : Chain next s.first nodes) {fuel : ℕ} {freed : List Block}
    (destroyed : storageDestroy ⟨next, locked, []⟩ fuel (some s) = some freed) :
    ∀ x ∈ s.first :: nodes, locked x = false := by
  obtain ⟨⟨final, met⟩, disposed, _⟩ := Option.map_eq_some_iff.mp destroyed
  have reads : ∀ (r : Remains) x link, r.next = next ∧ r.locked = locked →
      r.cells s.first (some x) = some link →
        locked x = false ∧ links s.first next (some x) = some link := by
    rintro r x link ⟨rfl, rfl⟩ read
    by_cases away : x ∈ r.freed ∨ r.locked x = true
    · rw [Remains.cells, if_pos away] at read
      cases read
    · rw [Remains.cells, if_neg away] at read
      push Not at away
      exact ⟨by simpa using away.2, read⟩
  have kept : ∀ (r : Remains) x, r.next = next ∧ r.locked = locked →
      (r.free x).next = next ∧ (r.free x).locked = locked := fun _ _ same => same
  obtain ⟨path, unlocked⟩ : Path some (links s.first next) none met ∧
      ∀ x ∈ met, locked x = false := dispose_path kept reads rfl ⟨rfl, rfl⟩ disposed
  rw [Path.unique (path_links chain) path]
  exact unlocked

end Chain

/-! ## In a state that the threads have reached -/

variable {τ : Type*} [Fintype τ] [DecidableEq τ] {v : Variant} {s : Storage} {roles : τ → Role}
  {data : List Node} {w : World τ} {t : τ}

/-- Whatever the threads hold is on the list. -/
theorem held_subset (listed : s.Lists data)
    (reached : Reaches (World.step v s roles) (World.start s roles) w) (t : τ) :
    w.held t ⊆ w.order s data := by
  have moves := refines listed reached
  suffices ∀ view, Relation.ReflTransGen (Move (Conflicts v roles))
      ((World.start s roles).view s data) view → ∀ t, view.held t ⊆ view.order from
    this _ moves t
  intro view walked
  induction walked with
  | refl => exact fun _ => List.nil_subset _
  | tail _ moved ih => exact moved.subset ih

omit [DecidableEq τ] in
/-- Where all nodes are visible, no swap is between its stores. -/
theorem Placed.visible_perm_iff (placed : Placed s roles data w)
    (sound : Sound (Conflicts v roles) (w.view s data)) :
    ((w.listed data).filter w.visible).Perm data ↔ ∀ t, (w.pc t).hidden = none := by
  constructor
  · intro perm t
    cases hides : (w.pc t).hidden with
    | none => rfl
    | some a =>
        have out : w.visible a = false := World.not_visible_iff.mpr ⟨t, hides⟩
        obtain ⟨front, prev, b, back, split, _⟩ := placed.hiding sound hides
        have member : a ∈ w.order s data := by simp [split]
        have inside : a ∈ w.listed data := by
          rcases List.mem_cons.mp member with rfl | inside
          · rw [placed.first_visible sound] at out
            cases out
          · exact inside
        have seen := perm.mem_iff.mpr ((w.listed_perm data).mem_iff.mp inside)
        rw [(List.mem_filter.mp seen).2] at out
        cases out
  · intro settled
    have all : (w.listed data).filter w.visible = w.listed data := by
      refine List.filter_eq_self.mpr fun x _ => World.visible_iff.mpr fun t => ?_
      rw [settled t]
      nofun
    rw [all]
    exact w.listed_perm data

omit [DecidableEq τ] in
/-- Who holds a node holds one that the chain reaches. -/
theorem Placed.visible_held (placed : Placed s roles data w)
    (sound : Sound (Conflicts v roles) (w.view s data)) (holds : w.held t ≠ []) :
    ∃ x ∈ w.held t, w.visible x = true := by
  cases hides : (w.pc t).hidden with
  | none =>
      obtain ⟨x, rest, held⟩ := List.exists_cons_of_ne_nil holds
      have member : x ∈ w.held t := held ▸ List.mem_cons_self
      refine ⟨x, member, placed.visible_of_held sound member ?_⟩
      rw [hides]
      nofun
  | some a =>
      obtain ⟨_, prev, b, _, _, held, _⟩ := placed.hiding sound hides
      have member : prev ∈ w.held t := held ▸ List.mem_cons_self
      have distinct : (w.held t).Nodup := sound.distinct t
      rw [held] at distinct
      have apart : prev ≠ a := by
        rintro rfl
        exact (List.nodup_cons.mp distinct).1 List.mem_cons_self
      refine ⟨prev, member, placed.visible_of_held sound member ?_⟩
      rw [hides]
      exact fun same => apart (Option.some.inj same).symm

/-- Somebody holds the lock of the node. -/
def World.locked (w : World τ) (x : Node) : Bool := decide (∃ t, x ∈ w.held t)

/-- **What `storage_print` prints** in any state: the count and, numbered from 0, the strings
of the list as it is after the completed swaps, without the nodes that unfinished swaps have
taken out. So it prints all `n` strings if and only if no swap is between its stores. -/
theorem storage_print_complete_iff (listed : s.Lists data)
    (reached : Reaches (World.step v s roles) (World.start s roles) w) :
    (∀ fuel, s.count ≤ fuel → storagePrint w.next fuel (some s) =
        some (printedHeader data.length ++ printedNodes s 0 ((w.listed data).filter w.visible))) ∧
      (((w.listed data).filter w.visible).Perm data ↔ ∀ t, (w.pc t).hidden = none) := by
  obtain ⟨placed, sound⟩ := invariants listed reached
  refine ⟨fun fuel enough => ?_, placed.visible_perm_iff sound⟩
  have length : ((w.listed data).filter w.visible).length ≤ fuel := by
    calc ((w.listed data).filter w.visible).length
        ≤ (w.listed data).length := List.length_filter_le _ _
      _ = s.count := (w.listed_perm data).length_eq.trans listed.count.symm
      _ ≤ fuel := enough
  have printed := printLoop_chain (s := s) (placed.chain sound) length 0
  simp only [storagePrint, printed, listed.count, Option.map_some]

/-- The theorem between the stores of a swap: only two of three strings are printed. -/
theorem storage_print_complete_iff_run : ∃ s w,
    storageInit .mutex ⟨id, fun _ => true, fun _ => true⟩ 3 = .ok (some s) ∧
      Reaches (World.step .mutex s swapAndTraverse) (World.start s swapAndTraverse) w ∧
      storagePrint w.next 3 (some s) =
        some (printedHeader 3 ++ printedNode 0 (s.value 2) ++ printedNode 1 (s.value 3)) ∧
      ¬ ((w.listed [1, 2, 3]).filter w.visible).Perm [1, 2, 3] := by
  have ran : ((storageInit .mutex ⟨id, fun _ => true, fun _ => true⟩ 3).toOption.join.bind fun s =>
      (run (World.step .mutex s swapAndTraverse) (World.start s swapAndTraverse)
        (List.replicate 9 (0, 0))).map fun w =>
          ((w.listed [1, 2, 3]).filter w.visible, decide (∀ t, (w.pc t).hidden = none))) =
      some ([2, 3], false) := by
    decide +kernel
  obtain ⟨s, w, built, reached, seen⟩ := exists_reaches ran
  simp only [Prod.mk.injEq, decide_eq_false_iff_not] at seen
  have listed : s.Lists [1, 2, 3] := storageInit_lists built
  obtain ⟨prints, complete⟩ := storage_print_complete_iff listed reached
  have count : s.count = 3 := listed.count
  refine ⟨s, w, built, reached, ?_, fun all => seen.2 (complete.mp all)⟩
  rw [prints 3 (le_of_eq count), seen.1]
  simp [printedNodes]

/-- **`storage_destroy` can be called if and only if nobody holds the lock of a node.** Then
it frees the storage, the sentinel and the `n` nodes, each once, in whatever order the swaps
have left them. -/
theorem storage_destroy_iff_idle (listed : s.Lists data)
    (reached : Reaches (World.step v s roles) (World.start s roles) w) :
    ((∃ fuel freed, storageDestroy ⟨w.next, w.locked, []⟩ fuel (some s) = some freed) ↔
        ∀ t, w.held t = []) ∧
      ((∀ t, w.held t = []) → ∃ freed,
        (∀ fuel, s.count < fuel →
          storageDestroy ⟨w.next, w.locked, []⟩ fuel (some s) = some freed) ∧
        freed.Nodup ∧ freed.Perm (.storage :: (s.first :: data).map .node)) := by
  obtain ⟨placed, sound⟩ := invariants listed reached
  have works : (∀ t, w.held t = []) → ∀ fuel, s.count < fuel →
      storageDestroy ⟨w.next, w.locked, []⟩ fuel (some s) =
        some ((s.first :: w.listed data).map .node ++ [.storage]) := by
    intro idle fuel enough
    have settled := placed.settled_of_idle sound idle
    have length : (w.listed data).length < fuel := by
      rwa [(w.listed_perm data).length_eq, ← listed.count]
    apply storageDestroy_chain (placed.chain_settled sound settled) _ length
    intro x _
    exact decide_eq_false fun ⟨t, holds⟩ => absurd (idle t ▸ holds) List.not_mem_nil
  refine ⟨⟨?_, fun idle => ⟨_, _, works idle _ (Nat.lt_succ_self _)⟩⟩, fun idle =>
    ⟨_, works idle, ?_, ?_⟩⟩
  · rintro ⟨fuel, freed, destroyed⟩ t
    by_contra holds
    have unlocked := chain_of_storageDestroy (placed.chain sound) destroyed
    obtain ⟨x, held, seen⟩ := placed.visible_held sound holds
    have met : x ∈ s.first :: (w.listed data).filter w.visible := by
      rcases List.mem_cons.mp (held_subset listed reached t held) with rfl | inside
      · exact List.mem_cons_self
      · exact List.mem_cons_of_mem _ (List.mem_filter.mpr ⟨inside, seen⟩)
    exact of_decide_eq_false (unlocked x met) ⟨t, held⟩
  · have nodup : (s.first :: w.listed data).Nodup := sound.nodup
    refine List.nodup_append.mpr ⟨nodup.map fun _ _ => Block.node.inj, List.nodup_singleton _, ?_⟩
    simp
  · refine List.perm_append_comm.trans ?_
    exact (((w.listed_perm data).cons s.first).map Block.node).cons Block.storage

/-- The theorem after a swap of the first two of three nodes. -/
theorem storage_destroy_iff_idle_run : ∃ s w,
    storageInit .mutex ⟨id, fun _ => true, fun _ => true⟩ 3 = .ok (some s) ∧
      Reaches (World.step .mutex s swapAndTraverse) (World.start s swapAndTraverse) w ∧
      w.listed [1, 2, 3] = [2, 1, 3] ∧ ∃ freed,
        storageDestroy ⟨w.next, w.locked, []⟩ 4 (some s) = some freed ∧ freed.Nodup ∧
          freed.Perm (.storage :: (s.first :: [1, 2, 3]).map .node) := by
  have ran : ((storageInit .mutex ⟨id, fun _ => true, fun _ => true⟩ 3).toOption.join.bind fun s =>
      (run (World.step .mutex s swapAndTraverse) (World.start s swapAndTraverse)
        (List.replicate 19 (0, 0))).map fun w =>
          (w.listed [1, 2, 3], decide (∀ t, w.held t = []))) = some ([2, 1, 3], true) := by
    decide +kernel
  obtain ⟨s, w, built, reached, seen⟩ := exists_reaches ran
  simp only [Prod.mk.injEq, decide_eq_true_eq] at seen
  have count : s.count = 3 := (storageInit_lists built).count
  obtain ⟨freed, destroyed, once, all⟩ :=
    (storage_destroy_iff_idle (storageInit_lists built) reached).2 seen.2
  exact ⟨s, w, built, reached, seen.1, freed, destroyed 4 (count ▸ Nat.lt_succ_self 3), once, all⟩

end OperationSystems.NodeList
