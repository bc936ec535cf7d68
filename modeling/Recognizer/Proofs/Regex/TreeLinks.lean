import Mathlib.Logic.Relation
import Recognizer.Proofs.Regex.Arena

/-!
# The links of the nodes

The nodes that are built from a postfix stream make up a tree: each node but the last is the child
of one other node, which has a greater number, and the links of parent and children agree. The nodes
of a subtree stand next to each other, its root at their end, and a walk that visits children before
their parent goes through the nodes in the order of their numbers.

All this is read off the nodes of an expression, subtree by subtree. A stream has an expression if a
stack of operands is enough for its operators and one operand is left, and no tree is built from
other streams.

## Main definitions

* `Token.arity?`, `Evaluates`: the evaluation of a stream with a stack of operands.
* `Node.IsChild`, `Node.HasParent`, `Node.Walk`: the links, and the walk along them.
* `Expr.IsBlock`: a part of the nodes is that of a subtree.
* `Node.IsShaped`, `Ast.IsTree`: what is true of each node, and of all nodes of a tree.

## Main results

* `Expr.exists_ofPostfix_iff`: the streams that have an expression.
* `Expr.IsBlock.walk`, `Expr.IsBlock.descends_iff`: the walk through a subtree, and its nodes.
* `Expr.IsBlock.exists_block`: every node is the root of a subtree.
* `Ast.exists_build_iff_and_isTree`: the trees that are built.
-/

namespace Recognizer.Regex

open Relation (ReflTransGen)

/-! ### Evaluating a stream -/

/-- The number of operands that a token takes from a stack. The other operators are not of postfix
form. -/
def Token.arity? : Token → Option Nat
  | .op .star => some 1
  | .op .alt | .op .cat => some 2
  | .op _ => none
  | .epsilon | .lit _ | .action _ => some 0

/-- With `n` operands on a stack, each token of a stream finds its operands there and puts one
operand back, and `m` operands are left in the end. -/
inductive Evaluates : Nat → List Token → Nat → Prop
  | nil (n : Nat) : Evaluates n [] n
  | cons {t : Token} {ts : List Token} {k n m : Nat} (hk : t.arity? = some k) (hn : k ≤ n)
      (h : Evaluates (n - k + 1) ts m) : Evaluates n (t :: ts) m

namespace Expr

private theorem push_cases (stack : List (Expr Leaf)) (i : Nat) (t : Token) :
    (∃ k stack', t.arity? = some k ∧ k ≤ stack.length ∧ push stack i t = .ok stack' ∧
      stack'.length = stack.length - k + 1) ∨
    ((∃ e, push stack i t = .error e) ∧ ∀ k, t.arity? = some k → stack.length < k) := by
  cases t with
  | epsilon | lit c | action tag => exact Or.inl ⟨0, _, rfl, Nat.zero_le _, rfl, rfl⟩
  | op o =>
    cases o with
    | star =>
      cases stack with
      | nil => exact Or.inr ⟨⟨_, rfl⟩, fun k hk => Option.some.inj hk ▸ Nat.zero_lt_one⟩
      | cons e stack => exact Or.inl ⟨1, _, rfl, Nat.le_add_left 1 _, rfl, rfl⟩
    | alt | cat =>
      match stack with
      | [] => exact Or.inr ⟨⟨_, rfl⟩, fun k hk => Option.some.inj hk ▸ Nat.zero_lt_two⟩
      | [_] => exact Or.inr ⟨⟨_, rfl⟩, fun k hk => Option.some.inj hk ▸ Nat.one_lt_two⟩
      | r :: l :: stack => exact Or.inl ⟨2, _, rfl, Nat.le_add_left 2 _, rfl, rfl⟩
    | _ => exact Or.inr ⟨⟨_, rfl⟩, nofun⟩

/-- A stream is pushed if its tokens find their operands. -/
theorem exists_pushAll_iff (stack : List (Expr Leaf)) (i m : Nat) (ts : List Token) :
    (∃ stack', pushAll stack i ts = .ok stack' ∧ stack'.length = m) ↔
      Evaluates stack.length ts m := by
  induction ts generalizing stack i with
  | nil =>
    constructor
    · rintro ⟨stack', hstack', rfl⟩
      obtain rfl := Except.ok.inj hstack'
      exact .nil _
    · rintro ⟨⟩
      exact ⟨stack, rfl, rfl⟩
  | cons t ts ih =>
    rw [pushAll]
    rcases push_cases stack i t with ⟨k, stack', hk, hle, hpush, hlength⟩ | ⟨⟨e, he⟩, hfew⟩
    · rw [hpush]
      change (∃ stack'', pushAll stack' (i + 1) ts = .ok stack'' ∧ stack''.length = m) ↔ _
      rw [ih, hlength]
      refine ⟨.cons hk hle, fun h => ?_⟩
      cases h with
      | cons hk' _ h =>
        obtain rfl := Option.some.inj (hk.symm.trans hk')
        exact h
    · rw [he]
      constructor
      · rintro ⟨stack', hstack', -⟩
        cases hstack'
      · rintro (_ | ⟨hk, hle, -⟩)
        exact absurd hle (Nat.not_le.mpr (hfew _ hk))

/-- The streams that have an expression are those that evaluate to one operand. -/
theorem exists_ofPostfix_iff {ts : List Token} :
    (∃ e, ofPostfix ts = .ok e) ↔ Evaluates 0 ts 1 := by
  rw [← List.length_nil, ← exists_pushAll_iff [] 0 1 ts]
  constructor
  · rintro ⟨e, he⟩
    refine ⟨[e], ?_, rfl⟩
    rw [ofPostfix_eq_ok_iff.mp he]
    exact pushAll_toPostfixThen e [] 0 []
  · rintro ⟨stack, hstack, hlength⟩
    obtain ⟨e, rfl⟩ := List.length_eq_one_iff.mp hlength
    exact ⟨e, by rw [ofPostfix, hstack]; rfl⟩

end Expr

/-! ### Links -/

namespace Node

/-- The first node is a child of the second one. -/
def IsChild (nodes : List Node) (c p : Nat) : Prop :=
  ∃ node, nodes[p]? = some node ∧ (node.left = some c ∨ node.right = some c)

/-- The second node is the parent that the first one names. -/
def HasParent (nodes : List Node) (c p : Nat) : Prop :=
  ∃ node, nodes[c]? = some node ∧ node.parent = some p

/-- Children lead from the first node to the second one. -/
abbrev Descends (nodes : List Node) : Nat → Nat → Prop := ReflTransGen fun p c => IsChild nodes c p

/-- The walk from a node that visits the children, from left to right, and then the node. -/
inductive Walk (nodes : List Node) : Nat → List Nat → Prop
  | leaf {n : Nat} {node : Node} (h : nodes[n]? = some node) (hleft : node.left = none)
      (hright : node.right = none) : Walk nodes n [n]
  | unary {n l : Nat} {node : Node} {u : List Nat} (h : nodes[n]? = some node)
      (hleft : node.left = some l) (hright : node.right = none) (hl : Walk nodes l u) :
      Walk nodes n (u ++ [n])
  | binary {n l r : Nat} {node : Node} {u v : List Nat} (h : nodes[n]? = some node)
      (hleft : node.left = some l) (hright : node.right = some r) (hl : Walk nodes l u)
      (hr : Walk nodes r v) : Walk nodes n (u ++ v ++ [n])

/-- A node has as many children as its token has operands, the left one with the smaller number. It
has a position if it is a leaf other than `ε`. -/
structure IsShaped (node : Node) : Prop where
  arity : node.value.arity? = some (node.left.toList ++ node.right.toList).length
  left : node.left = none → node.right = none
  lt : ∀ l ∈ node.left, ∀ r ∈ node.right, l < r
  position : node.position.isSome ↔ node.left = none ∧ node.value ≠ .epsilon

variable {nodes : List Node} {node : Node} {n c p : Nat} {u v : List Nat}

theorem isChild_iff (h : nodes[p]? = some node) :
    IsChild nodes c p ↔ node.left = some c ∨ node.right = some c :=
  ⟨fun ⟨_, h', hc⟩ => Option.some.inj (h'.symm.trans h) ▸ hc, fun hc => ⟨node, h, hc⟩⟩

theorem HasParent.unique {q : Nat} (h : HasParent nodes c p) (h' : HasParent nodes c q) :
    p = q := by
  obtain ⟨node, hnode, hp⟩ := h
  obtain ⟨_, hnode', hq⟩ := h'
  obtain rfl := Option.some.inj (hnode.symm.trans hnode')
  exact Option.some.inj (hp.symm.trans hq)

theorem descends_iff (h : nodes[n]? = some node) :
    Descends nodes n c ↔
      c = n ∨ (∃ m ∈ node.left, Descends nodes m c) ∨ ∃ m ∈ node.right, Descends nodes m c := by
  rw [Descends, ReflTransGen.cases_head_iff, eq_comm]
  simp only [isChild_iff h, or_and_right, exists_or, Option.mem_def]

theorem Walk.unique (h : Walk nodes n u) (h' : Walk nodes n v) : u = v := by
  induction h generalizing v with
  | leaf h hleft hright =>
    cases h' with
    | leaf => rfl
    | unary h' hleft' | binary h' hleft' =>
      obtain rfl := Option.some.inj (h.symm.trans h')
      cases hleft.symm.trans hleft'
  | unary h hleft hright _ ih =>
    cases h' with
    | leaf h' hleft' =>
      obtain rfl := Option.some.inj (h.symm.trans h')
      cases hleft.symm.trans hleft'
    | unary h' hleft' _ hl' =>
      obtain rfl := Option.some.inj (h.symm.trans h')
      obtain rfl := Option.some.inj (hleft.symm.trans hleft')
      rw [ih hl']
    | binary h' _ hright' =>
      obtain rfl := Option.some.inj (h.symm.trans h')
      cases hright.symm.trans hright'
  | binary h hleft hright _ _ ihl ihr =>
    cases h' with
    | leaf h' hleft' =>
      obtain rfl := Option.some.inj (h.symm.trans h')
      cases hleft.symm.trans hleft'
    | unary h' _ hright' =>
      obtain rfl := Option.some.inj (h.symm.trans h')
      cases hright.symm.trans hright'
    | binary h' hleft' hright' hl' hr' =>
      obtain rfl := Option.some.inj (h.symm.trans h')
      obtain rfl := Option.some.inj (hleft.symm.trans hleft')
      obtain rfl := Option.some.inj (hright.symm.trans hright')
      rw [ihl hl', ihr hr']

end Node

/-! ### Subtrees -/

namespace Expr

open Node (IsChild HasParent Descends Walk)

variable {nodes : List Node} {e l r : Expr Mark} {id position n c : Nat} {parent : Option Nat}

/-- The nodes from the number `id` on are, to begin with, those of a subtree. What comes after them
is left open. -/
def IsBlock (nodes : List Node) (id position : Nat) (parent : Option Nat) (e : Expr Mark) : Prop :=
  e.nodesFrom id position parent <+: nodes.drop id

private theorem prefix_drop_append {part rest : List Node} (h : part ++ rest <+: nodes.drop id) :
    part <+: nodes.drop id ∧ rest <+: nodes.drop (id + part.length) := by
  refine ⟨(List.prefix_append part rest).trans h, ?_⟩
  obtain ⟨after, h⟩ := h
  rw [← List.drop_drop, ← h, List.append_assoc, List.drop_left]
  exact List.prefix_append rest after

private theorem getElem?_of_prefix {node : Node} (h : [node] <+: nodes.drop id) :
    nodes[id]? = some node := by
  obtain ⟨after, h⟩ := h
  rw [← Nat.add_zero id, ← List.getElem?_drop, ← h]
  rfl

theorem rootId_add_one (e : Expr Mark) (id : Nat) : e.rootId id + 1 = id + e.size :=
  Nat.sub_add_cancel (Nat.le_add_left_of_le e.size_pos)

theorem rootId_lt (e : Expr Mark) (id : Nat) : e.rootId id < id + e.size :=
  Nat.lt_of_succ_le (Nat.le_of_eq (rootId_add_one e id))

theorem le_rootId (e : Expr Mark) (id : Nat) : id ≤ e.rootId id :=
  Nat.le_sub_one_of_lt (Nat.lt_add_of_pos_right e.size_pos)

theorem rootId_lt_rootId (l r : Expr Mark) (id : Nat) : l.rootId id < r.rootId (id + l.size) := by
  rw [← Nat.succ_le_iff, Nat.succ_eq_add_one, rootId_add_one]
  exact le_rootId r _

namespace IsBlock

/-! Each kind of subtree: the blocks of its parts, and its root. -/

theorem epsilon (h : Expr.epsilon.IsBlock nodes id position parent) :
    nodes[id]? = some ⟨.epsilon, parent, none, none, none⟩ :=
  getElem?_of_prefix h

theorem leaf {a : Mark} (h : (Expr.leaf a).IsBlock nodes id position parent) :
    nodes[id]? = some ⟨a.token, parent, none, none, some position⟩ :=
  getElem?_of_prefix h

theorem star (h : (star e).IsBlock nodes id position parent) :
    e.IsBlock nodes id position (some (id + e.size)) ∧
      nodes[id + e.size]? = some ⟨.op .star, parent, e.rootId id, none, none⟩ := by
  obtain ⟨hbody, hroot⟩ := prefix_drop_append h
  rw [length_nodesFrom] at hroot
  exact ⟨hbody, getElem?_of_prefix hroot⟩

theorem sides (h : e.IsBlock nodes id position parent) (he : e = .alt l r ∨ e = .cat l r) :
    ∃ token : Token, token.arity? = some 2 ∧ e.rootId id = id + l.size + r.size ∧
      l.IsBlock nodes id position (e.rootId id) ∧
      r.IsBlock nodes (id + l.size) (position + l.leafCount) (e.rootId id) ∧
      nodes[e.rootId id]? = some ⟨token, parent, l.rootId id, r.rootId (id + l.size), none⟩ := by
  have hid : e.rootId id = id + l.size + r.size := by
    rcases he with rfl | rfl <;> rw [rootId, size] <;> omega
  obtain ⟨token, harity, heq⟩ : ∃ token : Token, token.arity? = some 2 ∧
      e.nodesFrom id position parent = l.nodesFrom id position (e.rootId id) ++
        r.nodesFrom (id + l.size) (position + l.leafCount) (e.rootId id) ++
          [⟨token, parent, l.rootId id, r.rootId (id + l.size), none⟩] := by
    rw [hid]
    rcases he with rfl | rfl
    · exact ⟨.op .alt, rfl, rfl⟩
    · exact ⟨.op .cat, rfl, rfl⟩
  rw [IsBlock, heq] at h
  obtain ⟨hsides, hroot⟩ := prefix_drop_append h
  obtain ⟨hl, hr⟩ := prefix_drop_append hsides
  rw [length_nodesFrom] at hr
  rw [List.length_append, length_nodesFrom, length_nodesFrom, ← Nat.add_assoc, ← hid] at hroot
  exact ⟨token, harity, hid, hl, hr, getElem?_of_prefix hroot⟩

/-! What the root of a subtree links to. -/

theorem exists_root (h : e.IsBlock nodes id position parent) :
    ∃ node, nodes[e.rootId id]? = some node ∧ node.parent = parent := by
  cases e with
  | epsilon => exact ⟨_, h.epsilon, rfl⟩
  | leaf a => exact ⟨_, h.leaf, rfl⟩
  | alt l r | cat l r =>
    obtain ⟨token, -, -, -, -, hroot⟩ := h.sides (l := l) (r := r) (by simp)
    exact ⟨_, hroot, rfl⟩
  | star e => exact ⟨_, h.star.2, rfl⟩

theorem isShaped {node : Node} (h : e.IsBlock nodes id position parent)
    (hnode : nodes[e.rootId id]? = some node) : node.IsShaped := by
  cases e with
  | epsilon =>
    obtain rfl := Option.some.inj (hnode.symm.trans h.epsilon)
    constructor <;> simp [Token.arity?]
  | leaf a =>
    obtain rfl := Option.some.inj (hnode.symm.trans h.leaf)
    rcases a with (c | tag) | _ <;>
      constructor <;> simp [Mark.token, Leaf.token, Token.arity?]
  | alt l r | cat l r =>
    obtain ⟨token, harity, -, -, -, hroot⟩ := h.sides (l := l) (r := r) (by simp)
    obtain rfl := Option.some.inj (hnode.symm.trans hroot)
    constructor <;> simp [harity, rootId_lt_rootId]
  | star e =>
    obtain rfl := Option.some.inj (hnode.symm.trans h.star.2)
    constructor <;> simp [Token.arity?]

/-- The children of the root of a subtree come before it, and it is the parent that they name. -/
theorem of_isChild (h : e.IsBlock nodes id position parent)
    (hc : IsChild nodes c (e.rootId id)) : c < e.rootId id ∧ HasParent nodes c (e.rootId id) := by
  cases e with
  | epsilon => exact absurd ((Node.isChild_iff h.epsilon).mp hc) (by simp)
  | leaf a => exact absurd ((Node.isChild_iff h.leaf).mp hc) (by simp)
  | alt l r | cat l r =>
    obtain ⟨token, -, hid, hl, hr, hroot⟩ := h.sides (l := l) (r := r) (by simp)
    have hlast := rootId_add_one r (id + l.size)
    have hlt := rootId_lt_rootId l r id
    rw [Node.isChild_iff hroot] at hc
    rcases hc with hc | hc
    · obtain rfl := Option.some.inj hc
      exact ⟨by omega, hl.exists_root⟩
    · obtain rfl := Option.some.inj hc
      exact ⟨by omega, hr.exists_root⟩
  | star e =>
    obtain ⟨hbody, hroot⟩ := h.star
    obtain hc | hc := (Node.isChild_iff hroot).mp hc
    · obtain rfl := Option.some.inj hc
      exact ⟨rootId_lt e id, hbody.exists_root⟩
    · cases hc

/-! The nodes of a block. -/

/-- The walk from the root of a subtree goes through the block, in the order of the numbers. -/
theorem walk (h : e.IsBlock nodes id position parent) :
    Walk nodes (e.rootId id) (List.range' id e.size) := by
  induction e generalizing id position parent with
  | epsilon => exact .leaf h.epsilon rfl rfl
  | leaf a => exact .leaf h.leaf rfl rfl
  | alt l r ihl ihr | cat l r ihl ihr =>
    obtain ⟨token, -, hid, hl, hr, hroot⟩ := h.sides (l := l) (r := r) (by simp)
    have hwalk := Walk.binary hroot rfl rfl (ihl hl) (ihr hr)
    rwa [List.range'_append_1, hid, Nat.add_assoc id, ← List.range'_1_concat, ← Nat.add_assoc,
      ← hid] at hwalk
  | star e ih =>
    obtain ⟨hbody, hroot⟩ := h.star
    have hwalk := Walk.unary hroot rfl rfl (ih hbody)
    rwa [← List.range'_1_concat] at hwalk

/-- Children lead from the root of a subtree to the nodes of the block. -/
theorem descends_iff (h : e.IsBlock nodes id position parent) :
    Descends nodes (e.rootId id) c ↔ id ≤ c ∧ c < id + e.size := by
  induction e generalizing id position parent with
  | epsilon =>
    rw [rootId, size, Nat.add_sub_cancel, Node.descends_iff h.epsilon]
    simp only [Option.mem_def, reduceCtorEq, false_and, exists_const, or_self, or_false]
    omega
  | leaf a =>
    rw [rootId, size, Nat.add_sub_cancel, Node.descends_iff h.leaf]
    simp only [Option.mem_def, reduceCtorEq, false_and, exists_const, or_self, or_false]
    omega
  | alt l r ihl ihr | cat l r ihl ihr =>
    obtain ⟨token, -, hid, hl, hr, hroot⟩ := h.sides (l := l) (r := r) (by simp)
    rw [Node.descends_iff hroot]
    simp only [Option.mem_def, Option.some.injEq, exists_eq_left', ihl hl, ihr hr, hid, size]
    omega
  | star e ih =>
    obtain ⟨hbody, hroot⟩ := h.star
    rw [rootId, size, ← Nat.add_assoc, Nat.add_sub_cancel, Node.descends_iff hroot]
    simp only [Option.mem_def, Option.some.injEq, exists_eq_left', ih hbody, reduceCtorEq,
      false_and, exists_const, or_false]
    omega

/-- Every node of a block is the root of a subtree. -/
theorem exists_block (h : e.IsBlock nodes id position parent) (hle : id ≤ n)
    (hlt : n < id + e.size) :
    ∃ (e' : Expr Mark) (id' position' : Nat) (parent' : Option Nat),
      e'.IsBlock nodes id' position' parent' ∧ e'.rootId id' = n := by
  induction e generalizing id position parent with
  | epsilon | leaf a =>
    exact ⟨_, id, position, parent, h, Nat.le_antisymm hle (Nat.le_of_lt_succ hlt)⟩
  | alt l r ihl ihr | cat l r ihl ihr =>
    obtain ⟨token, -, hid, hl, hr, -⟩ := h.sides (l := l) (r := r) (by simp)
    by_cases hleft : n < id + l.size
    · exact ihl hl hle hleft
    · by_cases hright : n < id + l.size + r.size
      · exact ihr hr (Nat.le_of_not_lt hleft) hright
      · refine ⟨_, id, position, parent, h, ?_⟩
        rw [size] at hlt
        omega
  | star e ih =>
    by_cases hbody : n < id + e.size
    · exact ih h.star.1 hle hbody
    · exact ⟨_, id, position, parent, h, Nat.le_antisymm (Nat.le_of_not_lt hbody)
        (Nat.le_of_lt_succ hlt)⟩

end IsBlock

/-! ### What the nodes hold -/

/-- The leaves other than `ε` are counted from left to right. -/
theorem filterMap_position (e : Expr Mark) (id position : Nat) (parent : Option Nat) :
    (e.nodesFrom id position parent).filterMap Node.position =
      List.range' position e.leafCount := by
  induction e generalizing id position parent with
  | epsilon | leaf a => rfl
  | alt l r ihl ihr | cat l r ihl ihr =>
    rw [nodesFrom, List.filterMap_append, List.filterMap_append, ihl, ihr, List.range'_append_1,
      leafCount]
    exact List.append_nil _
  | star e ih =>
    rw [nodesFrom, List.filterMap_append, ih, leafCount]
    exact List.append_nil _

/-- The nodes hold the tokens of the postfix stream. -/
theorem map_value (e : Expr Leaf) (id position : Nat) (parent : Option Nat) :
    ((e.map .leaf).nodesFrom id position parent).map Node.value = e.toPostfix := by
  induction e generalizing id position parent with
  | epsilon | leaf a => rfl
  | alt l r ihl ihr | cat l r ihl ihr =>
    rw [map, nodesFrom, List.map_append, List.map_append, ihl, ihr]
    simp only [toPostfix_alt, toPostfix_cat]
    rfl
  | star e ih =>
    rw [map, nodesFrom, List.map_append, ih, toPostfix_star]
    rfl

/-! ### The nodes of an expression -/

section Nodes

variable {e : Expr Leaf} {n c p : Nat} {node : Node}

theorem isBlock_nodes (e : Expr Leaf) : e.augmented.IsBlock e.nodes 0 0 none := List.prefix_rfl

theorem exists_isBlock (h : e.nodes[n]? = some node) :
    ∃ (e' : Expr Mark) (id position : Nat) (parent : Option Nat),
      e'.IsBlock e.nodes id position parent ∧ e'.rootId id = n := by
  have hlt := (List.getElem?_eq_some_iff.mp h).1
  rw [nodes, length_nodesFrom, ← Nat.zero_add (size _)] at hlt
  exact e.isBlock_nodes.exists_block (Nat.zero_le n) hlt

theorem lt_and_hasParent (h : IsChild e.nodes c p) : c < p ∧ HasParent e.nodes c p := by
  obtain ⟨e', id, position, parent, hblock, rfl⟩ := exists_isBlock h.choose_spec.1
  exact hblock.of_isChild h

theorem exists_isChild (h : c < e.augmented.rootId 0) : ∃ p, IsChild e.nodes c p := by
  have hc : Descends e.nodes (e.augmented.rootId 0) c :=
    e.isBlock_nodes.descends_iff.mpr ⟨Nat.zero_le c, Nat.lt_trans h (rootId_lt _ 0)⟩
  rcases hc.cases_tail with rfl | ⟨p, -, hp⟩
  · exact absurd h (Nat.lt_irrefl _)
  · exact ⟨p, hp⟩

theorem not_hasParent_rootId (p : Nat) : ¬ HasParent e.nodes (e.augmented.rootId 0) p := by
  rintro ⟨node, hnode, hp⟩
  obtain ⟨root, hroot, hnone⟩ := e.isBlock_nodes.exists_root
  obtain rfl := Option.some.inj (hnode.symm.trans hroot)
  cases hnone.symm.trans hp

/-- The links to children and to parents agree. -/
theorem isChild_iff_hasParent : IsChild e.nodes c p ↔ HasParent e.nodes c p := by
  refine ⟨fun h => (lt_and_hasParent h).2, fun h => ?_⟩
  -- the number is not that of the root, so the node is a child of the parent that it names
  obtain ⟨node, hnode, -⟩ := id h
  have hlt := (List.getElem?_eq_some_iff.mp hnode).1
  rw [nodes, length_nodesFrom, ← Nat.zero_add (size _), ← rootId_add_one] at hlt
  rcases Nat.lt_or_eq_of_le (Nat.le_of_lt_succ hlt) with hc | rfl
  · obtain ⟨q, hq⟩ := exists_isChild hc
    rwa [h.unique (lt_and_hasParent hq).2]
  · exact absurd h (not_hasParent_rootId p)

end Nodes

end Expr

/-! ### Trees -/

open Node (IsChild HasParent Descends Walk)

/-- The nodes are those of the tree of a postfix stream. -/
structure Ast.IsTree (ast : Ast) (tokens : List Token) : Prop where
  isShaped : ∀ node ∈ ast.nodes, node.IsShaped
  /-- Children have smaller numbers. -/
  lt_of_isChild : ∀ c p, IsChild ast.nodes c p → c < p
  isChild_iff : ∀ c p, IsChild ast.nodes c p ↔ HasParent ast.nodes c p
  existsUnique_parent : ∀ c < ast.root, ∃! p, IsChild ast.nodes c p
  not_isChild_root : ∀ p, ¬ IsChild ast.nodes ast.root p
  /-- The nodes of a subtree stand next to each other, its root at their end. -/
  descends_iff : ∀ n < ast.nodes.length, ∃ first ≤ n,
    ∀ c, Descends ast.nodes n c ↔ first ≤ c ∧ c ≤ n
  /-- The walk from the root goes through the nodes in their order. -/
  walk_iff : ∀ ids, Walk ast.nodes ast.root ids ↔ ids = List.range ast.nodes.length
  /-- The nodes hold the tokens of the stream, the end marker and a concatenation. -/
  values : ast.nodes.map Node.value = tokens ++ [.lit '#', .op .cat]
  /-- The end marker is the right side of the root. -/
  accept : ∃ node, ast.nodes[ast.root]? = some node ∧ node.right = some ast.accept
  holds_accept : Node.Holds ast.nodes ast.accept (.lit '#')
  /-- The leaves other than `ε` are counted from left to right. -/
  positions : ast.nodes.filterMap Node.position = List.range ast.positionCount

/-- The nodes of an expression make up a tree, whose nodes hold the tokens of the expression's
stream and of the end marker. -/
theorem Expr.isTree_nodes (e : Expr Leaf) : (Ast.mk e.nodes e.finishId).IsTree e.toPostfix := by
  have hroot : (Ast.mk e.nodes e.finishId).root = e.augmented.rootId 0 := e.rootId_augmented.symm
  obtain ⟨token, -, -, -, hfinish, hnode⟩ := e.isBlock_nodes.sides (Or.inr rfl)
  have hid : 0 + (e.map Mark.leaf).size = e.finishId := by
    rw [size_map, Nat.zero_add, finishId]
  constructor
  case isShaped =>
    intro node hmem
    obtain ⟨n, hn⟩ := List.mem_iff_getElem?.mp hmem
    obtain ⟨e', id, position, parent, hblock, rfl⟩ := exists_isBlock hn
    exact hblock.isShaped hn
  case lt_of_isChild => exact fun c p h => (lt_and_hasParent h).1
  case isChild_iff => exact fun c p => isChild_iff_hasParent
  case existsUnique_parent =>
    intro c hc
    rw [hroot] at hc
    obtain ⟨p, hp⟩ := exists_isChild hc
    exact ⟨p, hp, fun q hq => (lt_and_hasParent hq).2.unique (lt_and_hasParent hp).2⟩
  case not_isChild_root =>
    intro p hp
    rw [hroot] at hp
    exact not_hasParent_rootId p (lt_and_hasParent hp).2
  case descends_iff =>
    intro n hn
    obtain ⟨e', id, position, parent, hblock, rfl⟩ := exists_isBlock (List.getElem?_eq_getElem hn)
    refine ⟨id, le_rootId e' id, fun c => ?_⟩
    rw [hblock.descends_iff, ← rootId_add_one, Nat.lt_succ_iff]
  case walk_iff =>
    have hwalk := e.isBlock_nodes.walk
    rw [← List.range_eq_range', ← length_nodesFrom e.augmented 0 0 none, ← nodes, ← hroot] at hwalk
    exact fun ids => ⟨fun h => h.unique hwalk, fun h => h ▸ hwalk⟩
  case values =>
    simp only [nodes, augmented, nodesFrom, List.map_append, map_value, List.append_assoc]
    rfl
  case accept =>
    rw [hroot]
    exact ⟨_, hnode, congrArg some hid⟩
  case holds_accept => exact ⟨_, hid ▸ hfinish.leaf, rfl⟩
  case positions =>
    have hpositions := filterMap_position e.augmented 0 0 none
    rw [← List.range_eq_range', ← nodes] at hpositions
    have hcount : (Ast.mk e.nodes e.finishId).positionCount = e.augmented.leafCount := by
      rw [Ast.positionCount, ← List.countP_eq_length_filter, ← List.length_filterMap_eq_countP,
        hpositions, List.length_range]
    rw [hcount, hpositions]

/-- The trees that are built. A tree is built from the streams that evaluate to one operand, and
from no others, and it is the tree of its stream. -/
theorem Ast.exists_build_iff_and_isTree (tokens : List Token) :
    ((∃ ast, build tokens = .ok ast) ↔ Evaluates 0 tokens 1) ∧
      ∀ ast, build tokens = .ok ast → ast.IsTree tokens := by
  rw [← Expr.exists_ofPostfix_iff]
  simp only [build_eq, map_eq_ok_iff]
  refine ⟨⟨fun ⟨_, e, he, _⟩ => ⟨e, he⟩, fun ⟨e, he⟩ => ⟨_, e, he, rfl⟩⟩, ?_⟩
  rintro _ ⟨e, he, rfl⟩
  rw [Expr.ofPostfix_eq_ok_iff.mp he]
  exact e.isTree_nodes

example :
    Ast.build [.lit 'a', .epsilon, .op .alt, .op .star] =
      .ok ⟨[⟨.lit 'a', some 2, none, none, some 0⟩, ⟨.epsilon, some 2, none, none, none⟩,
        ⟨.op .alt, some 3, some 0, some 1, none⟩, ⟨.op .star, some 5, some 2, none, none⟩,
        ⟨.lit '#', some 5, none, none, some 1⟩, ⟨.op .cat, none, some 3, some 4, none⟩], 4⟩ := rfl

end Recognizer.Regex
