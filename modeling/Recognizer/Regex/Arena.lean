import Recognizer.Regex.Malformed
import Recognizer.Regex.Positions

/-!
# Building linked nodes

The linked nodes of an augmented tree are put into a list while a postfix stream is read, and after
it the end marker and one more concatenation. Each token becomes a node at the end of the list. The
numbers of the nodes that have no parent yet are on a stack; an operator takes its children from
there, and tells each of them its number.

## Main definitions

* `Arena`: the nodes while a stream is read.
* `Arena.push`, `Arena.pushAll`: the nodes after one token, and after a stream.
* `Ast`, `Ast.build`: finished trees, and the tree of a stream or the first place where the stream
  is malformed.
-/

namespace Recognizer.Regex

/-- The node with a parent. -/
def Node.adopt (parent : Nat) (node : Node) : Node := { node with parent := some parent }

/-- The nodes of some subtrees next to each other, as they are while a postfix stream is read. A
node has the number of its place, which never changes, while its parent is set when an operator
takes it. -/
structure Arena where
  /-- The nodes in the order of their numbers. -/
  nodes : Array Node
  /-- The numbers of the nodes without a parent, the last one first. -/
  roots : List Nat
  /-- The number of leaves other than `ε`. -/
  positions : Nat
  deriving DecidableEq, Repr

namespace Arena

/-- No nodes. -/
def empty : Arena := ⟨#[], [], 0⟩

/-- The arena after an operator with two sides: the two last roots become the children of a new
node. The last root is the right side, since it was pushed last. -/
def pushBinary (arena : Arena) (position : Nat) (token : Token) : Except Malformed Arena :=
  let id := arena.nodes.size
  match arena.roots with
  | right :: left :: rest =>
    let nodes := (arena.nodes.modify left (.adopt id)).modify right (.adopt id)
    .ok ⟨nodes.push ⟨token, none, some left, some right, none⟩, id :: rest, arena.positions⟩
  | _ => .error ⟨position, .operatorWithoutOperand⟩

/-- The arena after one token, which stands at `position`. An operand becomes a leaf of its own, and
a leaf other than `ε` gets the next position; an operator fails if there are too few roots. -/
def push (arena : Arena) (position : Nat) (token : Token) : Except Malformed Arena :=
  let id := arena.nodes.size
  match token with
  | .epsilon =>
    .ok ⟨arena.nodes.push ⟨token, none, none, none, none⟩, id :: arena.roots, arena.positions⟩
  | .lit _ | .action _ =>
    .ok ⟨arena.nodes.push ⟨token, none, none, none, some arena.positions⟩, id :: arena.roots,
      arena.positions + 1⟩
  | .op .star =>
    match arena.roots with
    | body :: rest =>
      let nodes := arena.nodes.modify body (.adopt id)
      .ok ⟨nodes.push ⟨token, none, some body, none, none⟩, id :: rest, arena.positions⟩
    | [] => .error ⟨position, .operatorWithoutOperand⟩
  | .op .cat | .op .alt => arena.pushBinary position token
  | .op o => .error ⟨position, .operatorInPostfix o⟩

/-- The arena after a stream, whose first token stands at `position`. -/
def pushAll (arena : Arena) (position : Nat) : List Token → Except Malformed Arena
  | [] => .ok arena
  | token :: tokens => do (← arena.push position token).pushAll (position + 1) tokens

end Arena

/-- A tree of linked nodes: the whole list of them, in which children come before their parents, and
the number of the leaf for the end of the text. -/
structure Ast where
  /-- The nodes in the order of their numbers. -/
  nodes : List Node
  /-- The number of the end marker's leaf. -/
  accept : Nat
  deriving DecidableEq, Repr

namespace Ast

/-- The number of the root, which is the last node. -/
def root (ast : Ast) : Nat := ast.nodes.length - 1

/-- The number of leaves other than `ε`, the end marker among them. -/
def positionCount (ast : Ast) : Nat := (ast.nodes.filter fun n => n.position.isSome).length

/-- The tree of a postfix stream, followed by the end marker and a concatenation. An operator
without its operands is reported where it stands, a stream with more than one operand left at its
end. -/
def build (tokens : List Token) : Except Malformed Ast := do
  let arena ← Arena.empty.pushAll 0 (tokens ++ [.lit '#', .op .cat])
  if arena.roots.length ≠ 1 then
    .error ⟨tokens.length, .operandsLeft (arena.roots.length - 1)⟩
  else return ⟨arena.nodes.toList, arena.nodes.size - 2⟩

end Ast

end Recognizer.Regex
