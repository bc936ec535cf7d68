import Recognizer.Regex.Expr
import Recognizer.Sorted.Set

/-!
# Augmented trees and their positions

An expression is put in front of an end marker, and the nodes of the augmented tree are numbered in
the order of a walk that visits children before their parent. For every node the position table
tells whether its subtree can be empty, with which leaves it can begin and end, and for every leaf,
which leaves can follow it. The leaves other than `ε` are also counted from the left; these ordinals
are their positions.

The table is computed in one pass: a subtree is told where its numbering begins, and after its
parent knows which leaves can follow the subtree as a whole, the subtree hands these down to its own
last leaves.

## Main definitions

* `Mark`, `Expr.augmented`: the leaves of an augmented tree, and the tree of an expression.
* `Node`, `Expr.nodes`: the tree as a list of linked nodes.
* `Row`, `Expr.positionTable`: the position table.
-/

namespace Recognizer.Regex

/-- A leaf of an augmented tree: one of the expression, or the end marker. -/
inductive Mark
  | leaf (a : Leaf)
  | finish
  deriving DecidableEq, Repr

/-- The token that a listing shows for the leaf; the end marker is shown as the character `#`. -/
def Mark.token : Mark → Token
  | leaf a => a.token
  | finish => .lit '#'

/-- The expression followed by the end marker. A text has been read to its end when the end marker
can come next. -/
def Expr.augmented (e : Expr Leaf) : Expr Mark := .cat (e.map .leaf) (.leaf .finish)

/-! ### The linked nodes -/

/-- A node of an augmented tree, with the numbers of its neighbours: its parent, unless it is the
root, and its children. A repetition has its body as the left child. -/
structure Node where
  value : Token
  parent : Option Nat
  left : Option Nat
  right : Option Nat
  /-- The ordinal of the node among the leaves other than `ε`. -/
  position : Option Nat
  deriving DecidableEq, Repr

/-- The number of the root of a subtree whose numbering begins at `id`. -/
def Expr.rootId (e : Expr Mark) (id : Nat) : Nat := id + e.size - 1

/-- The nodes of a subtree in the order of their numbers, which begin at `id`; its leaves are
counted from `position` on. Children come before their parents, and left before right. -/
def Expr.nodesFrom (id position : Nat) (parent : Option Nat) : Expr Mark → List Node
  | epsilon => [⟨.epsilon, parent, none, none, none⟩]
  | leaf a => [⟨a.token, parent, none, none, some position⟩]
  | star e =>
    let root := id + e.size
    nodesFrom id position (some root) e ++ [⟨.op .star, parent, some (e.rootId id), none, none⟩]
  | alt l r =>
    let root := id + l.size + r.size
    nodesFrom id position (some root) l ++
      nodesFrom (id + l.size) (position + l.leafCount) (some root) r ++
      [⟨.op .alt, parent, some (l.rootId id), some (r.rootId (id + l.size)), none⟩]
  | cat l r =>
    let root := id + l.size + r.size
    nodesFrom id position (some root) l ++
      nodesFrom (id + l.size) (position + l.leafCount) (some root) r ++
      [⟨.op .cat, parent, some (l.rootId id), some (r.rootId (id + l.size)), none⟩]

/-- The nodes of the augmented tree of an expression. -/
def Expr.nodes (e : Expr Leaf) : List Node := e.augmented.nodesFrom 0 0 none

/-- The number of the end marker's leaf in the augmented tree. -/
def Expr.finishId (e : Expr Leaf) : Nat := e.size

/-! ### The position table -/

/-- A set of node numbers. -/
abbrev NodeSet := SortedSet Nat

/-- What the position table says about a node. The fields after the first three belong to the leaves
other than `ε`; any other node has the empty set and no values there. -/
structure Row where
  /-- The subtree can be empty. -/
  nullable : Bool
  /-- The leaves that the subtree can begin with. -/
  first : NodeSet
  /-- The leaves that the subtree can end with. -/
  last : NodeSet
  /-- The leaves that can come right after this leaf. -/
  follow : NodeSet
  /-- The character of a literal leaf. -/
  symbol : Option Char
  /-- The node is the end marker's leaf. -/
  accept : Bool
  /-- The ordinal of the node among the leaves other than `ε`. -/
  position : Option Nat
  /-- The tag of an action leaf. -/
  action : Option ActionTag
  deriving DecidableEq

namespace Row

/-- The row of a node that is not a leaf, or is the leaf `ε`. -/
def inner (nullable : Bool) (first last : NodeSet) : Row :=
  ⟨nullable, first, last, ∅, none, false, none, none⟩

/-- The row of the leaf with number `id`, which the leaves in `follow` can follow. -/
def ofLeaf (id position : Nat) (follow : NodeSet) : Mark → Row
  | .leaf (.lit c) => ⟨false, {id}, {id}, follow, some c, false, some position, none⟩
  | .leaf (.action tag) => ⟨false, {id}, {id}, follow, none, false, some position, some tag⟩
  | .finish => ⟨false, {id}, {id}, follow, none, true, some position, none⟩

end Row

/-- The position data of a subtree. The rows depend on what can follow the subtree as a whole, which
only the nodes above it know, so they are a function of it. -/
structure Positions where
  /-- The number of nodes. -/
  size : Nat
  /-- The number of leaves other than `ε`. -/
  leafCount : Nat
  nullable : Bool
  first : NodeSet
  last : NodeSet
  /-- The rows of the nodes, if the leaves in the given set can follow the subtree. -/
  rows : NodeSet → List Row

namespace Expr

/-- The position data of a subtree whose numbering begins at `id` and whose leaves are counted from
`position` on. -/
@[simp] def positions (id position : Nat) : Expr Mark → Positions
  | epsilon => ⟨1, 0, true, ∅, ∅, fun _ => [.inner true ∅ ∅]⟩
  | leaf a => ⟨1, 1, false, {id}, {id}, fun follow => [.ofLeaf id position follow a]⟩
  | alt l r =>
    let L := positions id position l
    let R := positions (id + L.size) (position + L.leafCount) r
    let nullable := L.nullable || R.nullable
    let first := L.first ∪ R.first
    let last := L.last ∪ R.last
    ⟨L.size + R.size + 1, L.leafCount + R.leafCount, nullable, first, last,
      fun follow => L.rows follow ++ R.rows follow ++ [.inner nullable first last]⟩
  | cat l r =>
    let L := positions id position l
    let R := positions (id + L.size) (position + L.leafCount) r
    let nullable := L.nullable && R.nullable
    let first := if L.nullable then L.first ∪ R.first else L.first
    let last := if R.nullable then R.last ∪ L.last else R.last
    ⟨L.size + R.size + 1, L.leafCount + R.leafCount, nullable, first, last,
      fun follow =>
        L.rows (if R.nullable then R.first ∪ follow else R.first) ++ R.rows follow ++
          [.inner nullable first last]⟩
  | star e =>
    let E := positions id position e
    ⟨E.size + 1, E.leafCount, true, E.first, E.last,
      fun follow => E.rows (E.first ∪ follow) ++ [.inner true E.first E.last]⟩

/-- The position table of an expression: a row for every node of its augmented tree, in the order of
their numbers. Nothing follows the tree as a whole. -/
def positionTable (e : Expr Leaf) : List Row := (e.augmented.positions 0 0).rows ∅

end Expr

end Recognizer.Regex
