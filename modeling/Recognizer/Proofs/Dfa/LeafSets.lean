import Recognizer.Proofs.Dfa.Expressions
import Recognizer.Proofs.Regex.LinkedNodes

/-!
# What the states stand for

The automaton made of the annotation of linked nodes is in a state that stands for a set of leaves:
those that come after the text read so far in the strings of the root. The name of the state tells
this set from all other sets of leaves. The state accepts if the end marker or an action is among
the leaves, and its tag is the best one of these actions.

## Main definitions

* `Node.ComesAfter`: the leaf comes after the text in a string of the root.
* `StateId.ofLeaves`: the name of a set of leaves.
* `Dfa.StandsFor`: what is said of a state that stands for a set of leaves.

## Main results

* `Expr.comesAfter_nodes_iff`, `Expr.offers_iff_comesAfter`: the leaves after a text, by the links
  between nodes and by the tree.
* `Dfa.standsFor_run_annotate`: the states of the automaton that is made of an annotation.
-/

namespace Recognizer

open Regex

/-! ### Leaves after a text -/

namespace Regex.Node

/-- The node is a literal with the given character, and not the end marker, which is a literal in
the list, too. -/
def IsLiteral (nodes : List Node) (c : Char) (n : Nat) : Prop :=
  Holds nodes n (.lit c) ∧ n ≠ nodes.length - 2

/-- A string of the root begins with literals that spell the text, and the leaf comes after them.
Strings are spelled by the links between nodes here, without the tree. -/
def ComesAfter (nodes : List Node) (text : List Char) (n : Nat) : Prop :=
  ∃ u v, List.Forall₂ (IsLiteral nodes) text u ∧
    Spells nodes (nodes.length - 1) (u ++ n :: v)

end Regex.Node

namespace Regex.Expr

variable {e : Expr Leaf} {x : Nat × Mark} {text : List Char} {n : Nat} {a : Mark}

theorem holds_nodes_iff (hx : x ∈ (e.augmented.numbered 0).leaves) {token : Token} :
    Node.Holds e.nodes x.1 token ↔ x.2.token = token := by
  obtain ⟨node, hnode, hvalue⟩ := e.linkedAt_nodes.holds hx
  refine ⟨?_, fun htoken => ⟨node, hnode, hvalue.trans htoken⟩⟩
  rintro ⟨node', hnode', rfl⟩
  obtain rfl := Option.some.inj (hnode.symm.trans hnode')
  exact hvalue.symm

theorem holds_action_iff (hx : x ∈ (e.augmented.numbered 0).leaves) {tag : ActionTag} :
    Node.Holds e.nodes x.1 (.action tag) ↔ x.2 = .leaf (.action tag) := by
  rw [holds_nodes_iff hx]
  rcases x.2 with (_ | _) | _ <;> simp [Mark.token, Leaf.token]

theorem isLiteral_iff (hx : x ∈ (e.augmented.numbered 0).leaves) {c : Char} :
    Node.IsLiteral e.nodes c x.1 ↔ x.2 = .leaf (.lit c) := by
  rw [Node.IsLiteral, holds_nodes_iff hx, ← finishId_eq, Ne, ← e.eq_finish_iff x hx]
  rcases x.2 with (_ | _) | _ <;> simp [Mark.token, Leaf.token]

theorem forall₂_isLiteral_iff {u : List (Nat × Mark)}
    (hu : ∀ x ∈ u, x ∈ (e.augmented.numbered 0).leaves) :
    List.Forall₂ (Node.IsLiteral e.nodes) text (u.map Prod.fst) ↔
      u.map Prod.snd = marks text := by
  induction u generalizing text with
  | nil => cases text <;> simp [marks]
  | cons x u ih =>
    obtain ⟨hx, hu⟩ := List.forall_mem_cons.mp hu
    cases text with
    | nil => simp [marks]
    | cons c text =>
      rw [List.map_cons, List.forall₂_cons, isLiteral_iff hx, ih hu]
      simp [marks]

theorem comesAfter_nodes_iff :
    Node.ComesAfter e.nodes text n ↔
      ∃ u a v, (e.augmented.numbered 0).Spells (u ++ (n, a) :: v) ∧
        u.map Prod.snd = marks text := by
  simp only [Node.ComesAfter, ← rootId_augmented, spells_rootId_iff e.linkedAt_nodes]
  constructor
  · rintro ⟨u, v, hu, w, hw, hmap⟩
    obtain ⟨u, _, rfl, rfl, hv⟩ := List.map_eq_append_iff.mp hmap
    obtain ⟨⟨_, a⟩, v, rfl, rfl, -⟩ := List.map_eq_cons_iff.mp hv
    have hmem : ∀ x ∈ u, x ∈ (e.augmented.numbered 0).leaves := fun x hx =>
      hw.mem_leaves x (List.mem_append_left _ hx)
    exact ⟨u, a, v, hw, (forall₂_isLiteral_iff hmem).mp hu⟩
  · rintro ⟨u, a, v, hw, hu⟩
    have hmem : ∀ x ∈ u, x ∈ (e.augmented.numbered 0).leaves := fun x hx =>
      hw.mem_leaves x (List.mem_append_left _ hx)
    exact ⟨u.map Prod.fst, v.map Prod.fst, (forall₂_isLiteral_iff hmem).mpr hu, _, hw,
      List.map_append⟩

/-- The leaves that are offered after a text, by the links between nodes. -/
theorem offers_iff_comesAfter :
    e.Offers text a ↔
      ∃ n, Node.ComesAfter e.nodes text n ∧ (n, a) ∈ (e.augmented.numbered 0).leaves := by
  simp only [offers_iff, comesAfter_nodes_iff]
  constructor
  · rintro ⟨u, n, v, hw, hu⟩
    exact ⟨n, ⟨u, a, v, hw, hu⟩, hw.mem_leaves _ (by simp)⟩
  · rintro ⟨n, ⟨u, b, v, hw, hu⟩, ha⟩
    obtain rfl := eq_of_mem_leaves_numbered (hw.mem_leaves (n, b) (by simp)) ha
    exact ⟨u, n, v, hw, hu⟩

theorem exists_mem_leaves_of_comesAfter (h : Node.ComesAfter e.nodes text n) :
    ∃ a, (n, a) ∈ (e.augmented.numbered 0).leaves := by
  obtain ⟨u, a, v, hw, -⟩ := comesAfter_nodes_iff.mp h
  exact ⟨a, hw.mem_leaves _ (by simp)⟩

theorem offers_action_iff_comesAfter {tag : ActionTag} :
    e.Offers text (.leaf (.action tag)) ↔
      ∃ n, Node.ComesAfter e.nodes text n ∧ Node.Holds e.nodes n (.action tag) := by
  rw [offers_iff_comesAfter]
  refine exists_congr fun n => and_congr_right fun h => ?_
  obtain ⟨a, ha⟩ := exists_mem_leaves_of_comesAfter h
  rw [holds_action_iff ha]
  exact ⟨fun h => eq_of_mem_leaves_numbered ha h, fun h => h ▸ ha⟩

theorem offers_finish_iff_comesAfter :
    e.Offers text .finish ↔ Node.ComesAfter e.nodes text (e.nodes.length - 2) := by
  rw [offers_iff_comesAfter, ← finishId_eq]
  constructor
  · rintro ⟨n, hn, hfinish⟩
    rwa [← (e.eq_finish_iff _ hfinish).mp rfl]
  · intro h
    obtain ⟨a, ha⟩ := exists_mem_leaves_of_comesAfter h
    obtain rfl : a = .finish := (e.eq_finish_iff _ ha).mpr rfl
    exact ⟨_, h, ha⟩

/-! ### Names of sets of leaves -/

theorem map_position_rows (e : Expr Mark) (id position : Nat) (parent : Option Nat)
    (follow : NodeSet) :
    ((e.positions id position).rows follow).map Row.position =
      (e.nodesFrom id position parent).map Node.position := by
  induction e generalizing id position parent follow with
  | epsilon => rfl
  | leaf a => rcases a with (_ | _) | _ <;> rfl
  | alt l r ihl ihr | cat l r ihl ihr =>
    simp only [positions, size_positions, leafCount_positions, nodesFrom, List.map_append,
      ihl _ _ (some (id + l.size + r.size)), ihr _ _ (some (id + l.size + r.size))]
    rfl
  | star e ih =>
    simp only [positions, nodesFrom, List.map_append, ih _ _ (some (id + e.size))]
    rfl

theorem isSome_position_of_mem_nodesFrom {e : Expr Mark} {id position : Nat} {parent : Option Nat}
    {node : Node} (h : node ∈ e.nodesFrom id position parent) :
    node.position.isSome ∨ node.value = .epsilon ∨ ∃ o, node.value = .op o := by
  induction e generalizing id position parent with
  | epsilon =>
    obtain rfl := List.mem_singleton.mp h
    exact Or.inr (Or.inl rfl)
  | leaf a =>
    obtain rfl := List.mem_singleton.mp h
    exact Or.inl rfl
  | alt l r ihl ihr | cat l r ihl ihr =>
    simp only [nodesFrom, List.mem_append, List.mem_singleton] at h
    rcases h with (h | h) | rfl
    · exact ihl h
    · exact ihr h
    · exact Or.inr (Or.inr ⟨_, rfl⟩)
  | star e ih =>
    simp only [nodesFrom, List.mem_append, List.mem_singleton] at h
    rcases h with h | rfl
    · exact ih h
    · exact Or.inr (Or.inr ⟨_, rfl⟩)

theorem position?_positionTable (e : Expr Leaf) (n : Nat) :
    PositionTable.position? e.positionTable.toArray n = (e.nodes[n]?).bind Node.position := by
  have hmap := congrArg (fun l => l[n]?.bind id) (map_position_rows e.augmented 0 0 none ∅)
  simp only [List.getElem?_map, Option.bind_map, Function.id_comp] at hmap
  rw [PositionTable.position?, List.getElem?_toArray]
  exact hmap

theorem isSome_position?_of_isLetter (h : Node.IsLetter e.nodes n) :
    (PositionTable.position? e.positionTable.toArray n).isSome := by
  obtain ⟨node, hnode, hvalue⟩ : ∃ node, e.nodes[n]? = some node ∧
      node.value ≠ .epsilon ∧ ∀ o, node.value ≠ .op o := by
    rcases h with ⟨_, node, hnode, hvalue⟩ | ⟨_, node, hnode, hvalue⟩ <;>
      exact ⟨node, hnode, by simp [hvalue]⟩
  rw [position?_positionTable, hnode]
  rcases isSome_position_of_mem_nodesFrom (List.mem_of_getElem? hnode) with h | h | ⟨o, h⟩
  · exact h
  · exact absurd h hvalue.1
  · exact absurd h (hvalue.2 o)

end Regex.Expr

/-- The name of the state that stands for some leaves: it lists their ordinals, which the nodes have
as their positions. -/
def StateId.ofLeaves (nodes : List Node) (leaves : NodeSet) : StateId :=
  .ofPositions (leaves.toList.filterMap fun n => (nodes[n]?).bind Node.position)

theorem PositionTable.stateId_positionTable (e : Expr Leaf) (leaves : NodeSet) :
    PositionTable.stateId e.positionTable.toArray leaves = .ofLeaves e.nodes leaves := by
  rw [stateId, rowsOf, List.filterMap_filterMap, StateId.ofLeaves]
  congr 2
  funext n
  exact e.position?_positionTable n

/-! ### States -/

/-- The state stands for the leaves: its name is that of these leaves and of no others, it is the
trap if there are none, it accepts if the end marker or an action is among them, and it has the
best tag of the actions among them, if there are any. -/
structure Dfa.StandsFor (d : Dfa) (nodes : List Node) (s : StateId) (leaves : NodeSet) : Prop where
  name_eq : s = .ofLeaves nodes leaves
  eq_of_name_eq : ∀ t : NodeSet, (∀ n ∈ t, Node.IsLetter nodes n) → s = .ofLeaves nodes t →
    t = leaves
  eq_trap_iff : s = d.trap ↔ leaves = ∅
  accepting_iff : d.Accepting s ↔
    nodes.length - 2 ∈ leaves ∨ ∃ n ∈ leaves, ∃ tag, Node.Holds nodes n (.action tag)
  isSome_tag?_iff : (d.tag? s).isSome ↔ ∃ n ∈ leaves, ∃ tag, Node.Holds nodes n (.action tag)
  tag?_eq_some_iff : ∀ tag, d.tag? s = some tag ↔
    (∃ n ∈ leaves, Node.Holds nodes n (.action tag)) ∧
      ∀ n ∈ leaves, ∀ tag', Node.Holds nodes n (.action tag') → tag' = tag ∨ tag.Outranks tag'

namespace Dfa

/-- A text leads to the state that stands for the leaves which come after it, in the automaton of an
expression and by the links between the nodes of its tree. -/
theorem exists_standsFor_ofExpr (e : Expr Leaf) (text : List Char) :
    ∃ leaves : NodeSet, (∀ n, n ∈ leaves ↔ Node.ComesAfter e.nodes text n) ∧
      (ofExpr e).StandsFor e.nodes ((ofExpr e).run (ofExpr e).initial text) leaves := by
  obtain ⟨leaves, hleaves, hmem, hrun⟩ := exists_leaves_run_ofExpr e text
  have hcomes (n : Nat) : n ∈ leaves ↔ Node.ComesAfter e.nodes text n :=
    (hmem n).trans Expr.comesAfter_nodes_iff.symm
  have haction (tag : ActionTag) : e.Offers text (.leaf (.action tag)) ↔
      ∃ n ∈ leaves, Node.Holds e.nodes n (.action tag) := by
    rw [Expr.offers_action_iff_comesAfter]
    exact exists_congr fun n => and_congr_left' (hcomes n).symm
  have hsome : (∃ tag, e.Offers text (.leaf (.action tag))) ↔
      ∃ n ∈ leaves, ∃ tag, Node.Holds e.nodes n (.action tag) := by
    simp only [haction]
    exact ⟨fun ⟨tag, n, hn, h⟩ => ⟨n, hn, tag, h⟩, fun ⟨n, hn, tag, h⟩ => ⟨tag, n, hn, h⟩⟩
  -- leaves are told apart by their positions, so the name determines the set
  have hinj (t : NodeSet) (ht : PositionTable.AllLeaves e.positionTable.toArray t)
      (heq : (ofExpr e).run (ofExpr e).initial text =
        PositionTable.stateId e.positionTable.toArray t) : t = leaves :=
    e.proper_positionTable.stateId_inj ht hleaves (heq.symm.trans hrun)
  refine ⟨leaves, hcomes, {
    name_eq := by rw [hrun, PositionTable.stateId_positionTable]
    eq_of_name_eq := fun t ht heq => ?_
    eq_trap_iff := ⟨fun htrap => ?_, fun hempty => ?_⟩
    accepting_iff := ?_
    isSome_tag?_iff := by rw [isSome_tag?_ofExpr_iff, hsome]
    tag?_eq_some_iff := fun tag => ?_ }⟩
  · refine hinj t (fun n hn => Expr.isSome_position?_of_isLetter (ht n hn)) ?_
    rw [heq, PositionTable.stateId_positionTable]
  · exact (hinj ∅ (fun n hn => absurd hn (SortedSet.not_mem_empty n)) htrap).symm
  · rw [hrun, hempty]
    rfl
  · rw [accepting_ofExpr_iff, hsome, Expr.offers_finish_iff_comesAfter, ← hcomes, or_comm]
  · rw [tag?_ofExpr_eq_some_iff, haction]
    refine and_congr_right fun _ => ⟨fun h n hn tag' htag' => ?_, fun h tag' htag' => ?_⟩
    · exact h tag' ((haction tag').mpr ⟨n, hn, htag'⟩)
    · obtain ⟨n, hn, htag'⟩ := (haction tag').mp htag'
      exact h n hn tag' htag'

/-- States stand for sets of leaves. If a postfix stream is that of a tree, the states of the
automaton which is made of the annotation of its nodes are found by a queue that runs empty, and
every text leads to the state that stands for the leaves which come after it. -/
theorem standsFor_run_annotate {tokens : List Token} {nodes : List Node}
    (h : Expr.nodes <$> Expr.ofPostfix tokens = .ok nodes) :
    ∃ (table : PositionTable) (root : Row), Node.annotate (nodes.length - 2) nodes = some table ∧
      table.back? = some root ∧
      Drains PositionTable.Found.id table.next {table.stateId root.first}
        [table.found root.first] (table.reached root.first) ∧
      ∀ text, ∃ leaves : NodeSet, (∀ n, n ∈ leaves ↔ Node.ComesAfter nodes text n) ∧
        (ofRows table.toList).StandsFor nodes
          ((ofRows table.toList).run (ofRows table.toList).initial text) leaves := by
  obtain ⟨e, -, rfl⟩ := map_eq_ok_iff.mp h
  obtain ⟨root, hroot, hdrains⟩ := drains_ofExpr e
  refine ⟨e.positionTable.toArray, root, ?_, ?_, hdrains, exists_standsFor_ofExpr e⟩
  · rw [← e.finishId_eq, e.annotate_nodes]
  · rw [List.back?_toArray, hroot]

/-- Nodes of two alternatives that read the same character, each with an action of its own. -/
theorem standsFor_run_annotate_actions :
    let first : ActionTag := ⟨"r", 0⟩
    let second : ActionTag := ⟨"s", 1⟩
    let nodes : List Node :=
      [⟨.lit 'a', some 2, none, none, some 0⟩, ⟨.action first, some 2, none, none, some 1⟩,
        ⟨.op .cat, some 6, some 0, some 1, none⟩, ⟨.lit 'a', some 5, none, none, some 2⟩,
        ⟨.action second, some 5, none, none, some 3⟩, ⟨.op .cat, some 6, some 3, some 4, none⟩,
        ⟨.op .alt, some 8, some 2, some 5, none⟩, ⟨.lit '#', some 8, none, none, some 4⟩,
        ⟨.op .cat, none, some 6, some 7, none⟩]
    Expr.nodes <$> Expr.ofPostfix [.lit 'a', .action first, .op .cat, .lit 'a', .action second,
        .op .cat, .op .alt] = .ok nodes ∧
      ∃ (table : PositionTable) (root : Row),
        Node.annotate (nodes.length - 2) nodes = some table ∧ table.back? = some root ∧
        Drains PositionTable.Found.id table.next {table.stateId root.first}
          [table.found root.first] (table.reached root.first) ∧
        ∀ text, ∃ leaves : NodeSet, (∀ n, n ∈ leaves ↔ Node.ComesAfter nodes text n) ∧
          (ofRows table.toList).StandsFor nodes
            ((ofRows table.toList).run (ofRows table.toList).initial text) leaves := by
  intro first second nodes
  have h : Expr.nodes <$> Expr.ofPostfix [.lit 'a', .action first, .op .cat, .lit 'a',
      .action second, .op .cat, .op .alt] = .ok nodes := rfl
  exact ⟨h, standsFor_run_annotate h⟩

end Dfa

end Recognizer
