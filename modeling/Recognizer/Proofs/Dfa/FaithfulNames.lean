import Recognizer.Proofs.Dfa.Expressions
import Recognizer.Proofs.Regex.Arena

/-!
# Faithful names

The states of an automaton are found by a search that follows the moves from set to set, and that
knows a set again by its name alone. Two sets of one name would be taken for one state, and the
transitions of the second set would be lost. Nodes without a position do not show in a name, and
nodes with the same position show as one. So the names can only be trusted if each node of the sets
has a position of its own. In the table that is made of a tree this is so, and the search finds just
the sets that a search which compares the sets themselves would find.

## Main definitions

* `PositionTable.HasFaithfulNames`: what is said of the sets that moves lead to from a start.

## Main results

* `PositionTable.reaches_next_iff`: the search follows the moves, with a name put to each set.
* `PositionTable.Proper.mem_reached_iff`: no set is lost in the search.
* `PositionTable.Proper.hasFaithfulNames`: the names in a table that tells leaves apart.
* `Dfa.hasFaithfulNames_annotate`: the names of states, in general and in the automaton that is made
  of an annotation.
-/

namespace Recognizer

open Regex

namespace PositionTable

variable {table : PositionTable} {start s : NodeSet} {state : Found}

/-- The search follows the moves from set to set, and puts its name to each set. So it reaches
nothing that the moves do not reach without any names. -/
theorem reaches_next_iff :
    Reaches table.next (table.found start) state ↔
      ∃ s, Reaches table.moves start s ∧ state = table.found s := by
  constructor
  · intro h
    induction h with
    | refl => exact ⟨start, .refl, rfl⟩
    | tail _ hedge ih =>
      obtain ⟨s, hs, rfl⟩ := ih
      obtain ⟨c, hc⟩ := hedge
      obtain ⟨move, hmove, heq⟩ := List.mem_map.mp hc
      obtain ⟨-, rfl⟩ := Prod.mk.inj heq
      exact ⟨move.2, hs.tail ⟨move.1, hmove⟩, rfl⟩
  · rintro ⟨s, hs, rfl⟩
    refine hs.lift table.found fun a b hab => ?_
    obtain ⟨c, hmove⟩ := hab
    exact ⟨c, List.mem_map.mpr ⟨(c, b), hmove, rfl⟩⟩

theorem Proper.allLeaves_of_reaches (h : table.Proper) (hstart : table.AllLeaves start)
    (hs : Reaches table.moves start s) : table.AllLeaves s :=
  (h.isFound_of_reaches hstart (reaches_next_iff.mpr ⟨s, hs, rfl⟩)).2

/-- No set is lost in the search. It finds the sets that moves lead to, each under its name, and
nothing else. -/
theorem Proper.mem_reached_iff (h : table.Proper) (hstart : table.AllLeaves start) :
    state ∈ (table.reached start).map Prod.fst ↔
      ∃ s, Reaches table.moves start s ∧ state = table.found s := by
  rw [← reaches_next_iff, List.mem_map]
  constructor
  · rintro ⟨e, he, rfl⟩
    exact (h.reached_explored hstart).reached e he
  · intro hstate
    exact ⟨_, h.mem_reached_of_reaches hstart hstate, rfl⟩

/-- The names of the sets that moves lead to from the start can be trusted. Every node in such a set
has a position that no other node has. Sets have the same name only if they are the same, and the
name of the trap only if they are empty. The search, which knows sets by their names, finds each of
them under its name, and nothing else. -/
structure HasFaithfulNames (table : PositionTable) (start : NodeSet) : Prop where
  exists_position : ∀ s, Reaches table.moves start s → ∀ n ∈ s,
    ∃ k, table.position? n = some k ∧ ∀ m, table.position? m = some k → m = n
  stateId_eq_iff : ∀ s t, Reaches table.moves start s → Reaches table.moves start t →
    (table.stateId s = table.stateId t ↔ s = t)
  isTrap_iff : ∀ s, Reaches table.moves start s → ((table.stateId s).isTrap = true ↔ s = ∅)
  mem_reached_iff : ∀ state, state ∈ (table.reached start).map Prod.fst ↔
    ∃ s, Reaches table.moves start s ∧ state = table.found s

/-- Where leaves are told apart by their positions and only leaves follow, names are faithful. -/
theorem Proper.hasFaithfulNames (h : table.Proper) (hstart : table.AllLeaves start) :
    table.HasFaithfulNames start where
  exists_position s hs n hn := by
    obtain ⟨k, hk⟩ := Option.isSome_iff_exists.mp (h.allLeaves_of_reaches hstart hs n hn)
    exact ⟨k, hk, fun m hm => h.position_inj m n k hm hk⟩
  stateId_eq_iff s t hs ht :=
    ⟨h.stateId_inj (h.allLeaves_of_reaches hstart hs) (h.allLeaves_of_reaches hstart ht),
      congrArg table.stateId⟩
  isTrap_iff s hs := by
    have hempty : table.AllLeaves ∅ := fun n hn => absurd hn (SortedSet.not_mem_empty n)
    have htrap : table.stateId ∅ = .trap := stateId_empty
    rw [StateId.isTrap_iff, ← htrap]
    exact ⟨h.stateId_inj (h.allLeaves_of_reaches hstart hs) hempty, congrArg table.stateId⟩
  mem_reached_iff _ := h.mem_reached_iff hstart

end PositionTable

namespace Dfa

theorem mem_states_ofRows_iff_reaches {rows : List Row} {root : Row} {table : PositionTable}
    (htable : rows.toArray = table) (hroot : rows.getLast? = some root)
    (h : table.HasFaithfulNames root.first) {id : StateId} :
    id ∈ (ofRows rows).states ↔
      id = .trap ∨ ∃ s, Reaches table.moves root.first s ∧ id = table.stateId s := by
  rw [mem_states_ofRows htable hroot]
  refine or_congr_right ⟨?_, ?_⟩
  · rintro ⟨e, he, rfl⟩
    obtain ⟨s, hs, heq⟩ := (h.mem_reached_iff e.1).mp (List.mem_map_of_mem he)
    exact ⟨s, hs, congrArg PositionTable.Found.id heq⟩
  · rintro ⟨s, hs, rfl⟩
    obtain ⟨e, he, heq⟩ := List.mem_map.mp ((h.mem_reached_iff _).mpr ⟨s, hs, rfl⟩)
    exact ⟨e, he, congrArg PositionTable.Found.id heq⟩

/-- Names of states can be trusted. Names are equal just if they are made of the same positions,
whatever their order and however often each is given, and only the name that is made of no position
is that of the trap. So in the automaton which is made of the annotation of a tree, different sets
of leaves are different states, and none of them but the empty one is the trap. -/
theorem hasFaithfulNames_annotate :
    (∀ l m : List Nat, StateId.ofPositions l = .ofPositions m ↔ ∀ n, n ∈ l ↔ n ∈ m) ∧
    (∀ l : List Nat, (StateId.ofPositions l).isTrap = true ↔ l = []) ∧
    ∀ tokens ast, Ast.build tokens = .ok ast →
      ∃ (table : PositionTable) (root : Row), Node.annotate ast.accept ast.nodes = some table ∧
        table.back? = some root ∧ table.HasFaithfulNames root.first ∧
        ∀ id, id ∈ (ofRows table.toList).states ↔
          id = .trap ∨ ∃ s, Reaches table.moves root.first s ∧ id = table.stateId s := by
  refine ⟨fun l m => StateId.ofPositions_inj, fun l => StateId.isTrap_ofPositions, ?_⟩
  intro tokens ast hast
  rw [Ast.build_eq, map_eq_ok_iff] at hast
  obtain ⟨e, -, rfl⟩ := hast
  obtain ⟨root, hroot, hleaves⟩ := e.exists_root_positionTable
  have hnames := e.proper_positionTable.hasFaithfulNames hleaves
  refine ⟨e.positionTable.toArray, root, e.annotate_nodes, ?_, hnames, fun id => ?_⟩
  · rw [List.back?_toArray, hroot]
  · exact mem_states_ofRows_iff_reaches rfl hroot hnames

/-- A repeated letter before another one: the leaves are the nodes 0, 2 and 4, with the positions 0,
1 and 2. -/
theorem hasFaithfulNames_annotate_repetition :
    let tokens : List Token := [.lit 'a', .op .star, .lit 'b', .op .cat]
    let nodes : List Node :=
      [⟨.lit 'a', some 1, none, none, some 0⟩, ⟨.op .star, some 3, some 0, none, none⟩,
        ⟨.lit 'b', some 3, none, none, some 1⟩, ⟨.op .cat, some 5, some 1, some 2, none⟩,
        ⟨.lit '#', some 5, none, none, some 2⟩, ⟨.op .cat, none, some 3, some 4, none⟩]
    Ast.build tokens = .ok ⟨nodes, 4⟩ ∧
      ∃ (table : PositionTable) (root : Row), Node.annotate 4 nodes = some table ∧
        table.back? = some root ∧ table.HasFaithfulNames root.first ∧
        ∀ id, id ∈ (ofRows table.toList).states ↔
          id = .trap ∨ ∃ s, Reaches table.moves root.first s ∧ id = table.stateId s := by
  intro tokens nodes
  have h : Ast.build tokens = .ok ⟨nodes, 4⟩ := rfl
  exact ⟨h, hasFaithfulNames_annotate.2.2 tokens ⟨nodes, 4⟩ h⟩

end Dfa

end Recognizer
