import Recognizer.Proofs.Regex.LinkedNodes
import Recognizer.Proofs.Regex.PostfixTrees
import Recognizer.Regex.Arena

/-!
# The arena is a stack of trees

While a postfix stream is read, the nodes in the arena are those of the expressions that the stream
has pushed so far, one tree after the other. The roots of these trees are the last nodes of their
blocks, and they have no parent yet. A token does to the arena what it does to the stack of
expressions, so in the end the arena holds the nodes of the augmented tree.

## Main definitions

* `Arena.ofStack`: the arena with the nodes of a stack of expressions.

## Main results

* `Arena.push_ofExprs`: what one token does to the arena of a stack.
* `Arena.pushAll_ofExprs`: what a stream does.
* `Ast.build_eq`: the tree that is built is that of the expression.
-/

namespace Recognizer.Regex

variable {e l r : Expr Mark} {stack : List (Expr Mark)} {id position : Nat}

/-! ### The root of a block -/

/-- Only the last node of a subtree has the parent of the subtree; the parents of the others are
inside. -/
theorem Expr.exists_nodesFrom_eq (e : Expr Mark) (id position : Nat) :
    ∃ (below : List Node) (root : Node), below.length + 1 = e.size ∧
      ∀ parent, e.nodesFrom id position parent = below ++ [{ root with parent := parent }] := by
  cases e with
  | epsilon => exact ⟨[], ⟨.epsilon, none, none, none, none⟩, rfl, fun _ => rfl⟩
  | leaf a => exact ⟨[], ⟨a.token, none, none, none, some position⟩, rfl, fun _ => rfl⟩
  | alt l r | cat l r =>
    refine ⟨_, ⟨_, none, _, _, none⟩, ?_, fun _ => rfl⟩
    rw [List.length_append, length_nodesFrom, length_nodesFrom]
    rfl
  | star e =>
    refine ⟨_, ⟨_, none, _, none, none⟩, ?_, fun _ => rfl⟩
    rw [length_nodesFrom]
    rfl

namespace Arena

private theorem modify_middle (before after : List Node) (node : Node) (f : Node → Node) :
    (before ++ node :: after).toArray.modify before.length f =
      (before ++ f node :: after).toArray := by
  refine Array.ext_getElem? fun i => ?_
  rw [Array.getElem?_modify, List.getElem?_toArray, List.getElem?_toArray]
  rcases Nat.lt_trichotomy i before.length with hlt | rfl | hlt
  · rw [if_neg (by omega), List.getElem?_append_left hlt, List.getElem?_append_left hlt]
  · simp
  · obtain ⟨k, rfl⟩ := Nat.exists_eq_add_of_lt hlt
    rw [if_neg (by omega), List.getElem?_append_right (by omega),
      List.getElem?_append_right (by omega),
      show before.length + k + 1 - before.length = k + 1 by omega]
    rfl

theorem modify_rootId {before : List Node} (hid : before.length = id) (e : Expr Mark)
    (position p : Nat) (o : Option Nat) (after : List Node) :
    (before ++ (e.nodesFrom id position o ++ after)).toArray.modify (e.rootId id) (.adopt p) =
      (before ++ (e.nodesFrom id position (some p) ++ after)).toArray := by
  obtain ⟨below, root, hlength, heq⟩ := e.exists_nodesFrom_eq id position
  have hroot : e.rootId id = (before ++ below).length := by
    rw [Expr.rootId, List.length_append]
    omega
  have hsplit (o : Option Nat) : before ++ (e.nodesFrom id position o ++ after) =
      before ++ below ++ { root with parent := o } :: after := by
    rw [heq, List.append_assoc, List.append_assoc]
    rfl
  rw [hsplit, hsplit, hroot]
  exact modify_middle (before ++ below) after _ _

/-! ### The arena of a stack -/

/-- The number of nodes of some trees. -/
def sizeOf : List (Expr Mark) → Nat
  | [] => 0
  | e :: stack => sizeOf stack + e.size

/-- The number of their leaves other than `ε`. -/
def leafCountOf : List (Expr Mark) → Nat
  | [] => 0
  | e :: stack => leafCountOf stack + e.leafCount

/-- The nodes of the trees next to each other, the first tree of the stack at the end. -/
def nodesOf : List (Expr Mark) → List Node
  | [] => []
  | e :: stack => nodesOf stack ++ e.nodesFrom (sizeOf stack) (leafCountOf stack) none

/-- The numbers of their roots. -/
def rootsOf : List (Expr Mark) → List Nat
  | [] => []
  | e :: stack => e.rootId (sizeOf stack) :: rootsOf stack

/-- The arena with the nodes of some trees: their blocks, their roots and the number of their
leaves, all of which are determined by the trees. -/
def ofStack (stack : List (Expr Mark)) : Arena :=
  ⟨(nodesOf stack).toArray, rootsOf stack, leafCountOf stack⟩

theorem length_nodesOf (stack : List (Expr Mark)) : (nodesOf stack).length = sizeOf stack := by
  induction stack with
  | nil => rfl
  | cons e stack ih =>
    rw [nodesOf, List.length_append, ih, Expr.length_nodesFrom]
    rfl

theorem size_ofStack (stack : List (Expr Mark)) : (ofStack stack).nodes.size = sizeOf stack :=
  length_nodesOf stack

theorem length_rootsOf (stack : List (Expr Mark)) : (rootsOf stack).length = stack.length := by
  induction stack with
  | nil => rfl
  | cons e stack ih => rw [rootsOf, List.length_cons, ih, List.length_cons]

/-! ### What a token does -/

theorem push_epsilon_ofStack (stack : List (Expr Mark)) (i : Nat) :
    (ofStack stack).push i .epsilon = .ok (ofStack (.epsilon :: stack)) := by
  rw [push, size_ofStack, ofStack, List.push_toArray]
  rfl

theorem push_leaf_ofStack (stack : List (Expr Mark)) (i : Nat) (a : Mark) :
    (ofStack stack).push i a.token = .ok (ofStack (.leaf a :: stack)) := by
  rcases a with (c | tag) | _
  · rw [Mark.token, Leaf.token, push, size_ofStack, ofStack, List.push_toArray]
    rfl
  · rw [Mark.token, Leaf.token, push, size_ofStack, ofStack, List.push_toArray]
    rfl
  · rw [Mark.token, push, size_ofStack, ofStack, List.push_toArray]
    rfl

theorem push_star_ofStack (e : Expr Mark) (stack : List (Expr Mark)) (i : Nat) :
    (ofStack (e :: stack)).push i (.op .star) = .ok (ofStack (.star e :: stack)) := by
  have hroot := modify_rootId (length_nodesOf stack) e (leafCountOf stack) (sizeOf (e :: stack))
    none []
  rw [List.append_nil, List.append_nil] at hroot
  rw [push, size_ofStack]
  simp only [ofStack, rootsOf, nodesOf]
  rw [hroot, List.push_toArray, List.append_assoc]
  rfl

private theorem pushBinary_ofStack (l r e : Expr Mark) (stack : List (Expr Mark)) (i : Nat)
    (token : Token) (hsize : e.size = l.size + r.size + 1)
    (hcount : e.leafCount = l.leafCount + r.leafCount)
    (hnodes : ∀ id position, e.nodesFrom id position none =
      l.nodesFrom id position (some (id + l.size + r.size)) ++
        r.nodesFrom (id + l.size) (position + l.leafCount) (some (id + l.size + r.size)) ++
        [⟨token, none, some (l.rootId id), some (r.rootId (id + l.size)), none⟩]) :
    (ofStack (r :: l :: stack)).pushBinary i token = .ok (ofStack (e :: stack)) := by
  have hroot : e.rootId (sizeOf stack) = sizeOf stack + l.size + r.size := by
    rw [Expr.rootId, hsize]
    omega
  rw [pushBinary, size_ofStack]
  simp only [ofStack, rootsOf, nodesOf, sizeOf, leafCountOf, hnodes, hroot, hcount]
  generalize sizeOf stack + l.size + r.size = root
  -- first the left side gets its parent, then the right side
  have hbefore : (nodesOf stack ++
      l.nodesFrom (sizeOf stack) (leafCountOf stack) (some root)).length =
        sizeOf stack + l.size := by
    rw [List.length_append, length_nodesOf, Expr.length_nodesFrom]
  have hright := modify_rootId hbefore r (leafCountOf stack + l.leafCount) root none []
  rw [List.append_nil, List.append_nil] at hright
  rw [List.append_assoc, modify_rootId (length_nodesOf stack), ← List.append_assoc, hright,
    List.push_toArray]
  simp only [List.append_assoc, Nat.add_assoc]

theorem push_alt_ofStack (l r : Expr Mark) (stack : List (Expr Mark)) (i : Nat) :
    (ofStack (r :: l :: stack)).push i (.op .alt) = .ok (ofStack (.alt l r :: stack)) :=
  pushBinary_ofStack l r _ stack i _ rfl rfl fun _ _ => rfl

theorem push_cat_ofStack (l r : Expr Mark) (stack : List (Expr Mark)) (i : Nat) :
    (ofStack (r :: l :: stack)).push i (.op .cat) = .ok (ofStack (.cat l r :: stack)) :=
  pushBinary_ofStack l r _ stack i _ rfl rfl fun _ _ => rfl

/-- The arena with the nodes of some expressions that have been read. -/
def ofExprs (stack : List (Expr Leaf)) : Arena := ofStack (stack.map (.map .leaf))

/-- A token does to the arena what it does to the stack of expressions, and fails at the same tokens
with the same error. -/
theorem push_ofExprs (stack : List (Expr Leaf)) (i : Nat) (t : Token) :
    (ofExprs stack).push i t = ofExprs <$> Expr.push stack i t := by
  cases t with
  | epsilon => exact push_epsilon_ofStack _ i
  | lit c => exact push_leaf_ofStack _ i (.leaf (.lit c))
  | action tag => exact push_leaf_ofStack _ i (.leaf (.action tag))
  | op o =>
    cases o with
    | star =>
      cases stack with
      | nil => rfl
      | cons e stack => exact push_star_ofStack _ _ i
    | alt =>
      match stack with
      | [] => rfl
      | [_] => rfl
      | r :: l :: stack => exact push_alt_ofStack _ _ _ i
    | cat =>
      match stack with
      | [] => rfl
      | [_] => rfl
      | r :: l :: stack => exact push_cat_ofStack _ _ _ i
    | _ => rfl

/-- So does a stream. -/
theorem pushAll_ofExprs (stack : List (Expr Leaf)) (i : Nat) (ts : List Token) :
    (ofExprs stack).pushAll i ts = ofExprs <$> Expr.pushAll stack i ts := by
  induction ts generalizing stack i with
  | nil => rfl
  | cons t ts ih =>
    rw [pushAll, Expr.pushAll, push_ofExprs]
    cases Expr.push stack i t with
    | error e => rfl
    | ok stack' => exact ih stack' (i + 1)

theorem pushAll_append (arena : Arena) (i : Nat) (ts rest : List Token) :
    arena.pushAll i (ts ++ rest) =
      arena.pushAll i ts >>= fun arena => arena.pushAll (i + ts.length) rest := by
  induction ts generalizing arena i with
  | nil => rfl
  | cons t ts ih =>
    rw [List.cons_append, pushAll, pushAll, bind_assoc]
    refine bind_congr fun arena' => ?_
    rw [ih, List.length_cons, Nat.add_right_comm, Nat.add_assoc]

theorem pushAll_finish_ofExprs (e : Expr Leaf) (stack : List (Expr Leaf)) (i : Nat) :
    (ofExprs (e :: stack)).pushAll i [.lit '#', .op .cat] =
      .ok (ofStack (e.augmented :: stack.map (.map .leaf))) := by
  rw [pushAll, ofExprs, show Token.lit '#' = Mark.finish.token from rfl, push_leaf_ofStack]
  change pushAll (ofStack (.leaf .finish :: e.map .leaf :: stack.map (.map .leaf))) (i + 1) _ = _
  rw [pushAll, push_cat_ofStack]
  rfl

end Arena

/-- The tree of a stream. The tree that is built from a stream is that of the expression of the
stream, and it cannot be built where the stream is malformed, for the same reason and at the same
place. -/
theorem Ast.build_eq (ts : List Token) :
    build ts = (fun e => ⟨e.nodes, e.finishId⟩) <$> Expr.ofPostfix ts := by
  have hempty : Arena.empty = Arena.ofExprs [] := rfl
  rw [build, Expr.ofPostfix, Arena.pushAll_append, hempty, Arena.pushAll_ofExprs, Nat.zero_add]
  cases Expr.pushAll [] 0 ts with
  | error e => rfl
  | ok stack =>
    change ((Arena.ofExprs stack).pushAll ts.length _ >>= _) = _
    cases stack with
    | nil => rfl
    | cons e stack =>
      have hroots : (Arena.ofStack (e.augmented :: stack.map (.map .leaf))).roots.length =
          stack.length + 1 := by
        rw [Arena.ofStack, Arena.length_rootsOf, List.length_cons, List.length_map]
      rw [Arena.pushAll_finish_ofExprs]
      change (if _ ≠ 1 then _ else _) = _
      rw [hroots]
      cases stack with
      | nil =>
        rw [if_neg (by simp)]
        change Except.ok (Ast.mk e.nodes (e.nodes.length - 2)) = _
        rw [← e.finishId_eq]
        rfl
      | cons e' stack =>
        rw [if_pos (by simp)]
        rfl

end Recognizer.Regex
